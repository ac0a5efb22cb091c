import PicksOnMap.Guarantees.ViewChanges

/-!
# A view shows the server's data under the pending writes

Source pin: Pods/FirebaseDatabase, FViewProcessor.m:228-419,469-660;
FWriteTree.m:187-230,275-331.

The event node of a view is kept up to date one operation at a time, from the part
that the operation is about. It stays what computing it anew from the server's data
and the pending writes gives, as long as the server holds no leaf strictly above a
pending write.
-/
namespace PicksOnMap.Source

open Support Support.SortedEntries

variable {K : Type} [LinearOrder K] [StringComparator K]

/-! ## The writes seen from one path -/

namespace FCompoundWrite

theorem Canonical.completeNodeAtPath_child {write : FCompoundWrite K} (canonical : write.Canonical)
    (path below : FPath K) :
    (write.childCompoundWriteAtPath path).completeNodeAtPath below =
      write.completeNodeAtPath (path ++ below) := by
  have child := canonical.childCompoundWriteAtPath path
  cases complete : write.completeNodeAtPath path with
  | some node =>
      have top := canonical.child_of_complete complete []
      rw [if_pos rfl] at top
      have read := child.completeNodeAtPath top below
      obtain ⟨found, rest, value, rfl, held, rfl⟩ := canonical.completeNodeAtPath_eq_some.mp complete
      rw [List.nil_append] at read
      rw [read, List.append_assoc, canonical.completeNodeAtPath held, FNode.getChild_append]
  | none =>
      have inside := child_of_free complete
      have bare := completeNodeAtPath_eq_none.mp complete
      rcases write.merged_or_free (path ++ below) with ⟨found, rest, value, split, held⟩ | free
      · obtain ⟨deeper, rfl⟩ : path <+: found := by
          rcases List.prefix_or_prefix_of_prefix (List.prefix_append path below)
            (split ▸ List.prefix_append found rest) with under | above
          · exact under
          · rw [bare found above] at held
            cases held
        rw [split, canonical.completeNodeAtPath held]
        rw [List.append_assoc] at split
        obtain rfl := List.append_cancel_left split
        exact child.completeNodeAtPath ((inside deeper).trans held) rest
      · rw [completeNodeAtPath_eq_none.mpr free]
        refine completeNodeAtPath_eq_none.mpr fun above onPath => ?_
        rw [inside]
        exact free _ ((List.prefix_append_right_inj path).mpr onPath)

/-- What a write shows at a path depends on the node's leaf there only. -/
theorem Canonical.leafAt_applyToNode_base {write : FCompoundWrite K} (canonical : write.Canonical)
    {left right : FNode K} {query : FPath K} (same : left.leafAt query = right.leafAt query) :
    (write.applyToNode left).leafAt query = (write.applyToNode right).leafAt query := by
  rw [canonical.leafAt_applyToNode, canonical.leafAt_applyToNode]
  exact LeafMap.overlay_congr _ same

end FCompoundWrite

namespace FWriteTreeRef

def localWrites (writes : FWriteTreeRef K) : FCompoundWrite K :=
  writes.writeTree.visibleWrites.childCompoundWriteAtPath writes.path

section Answers

variable {writes : FWriteTreeRef K} (canonical : writes.writeTree.visibleWrites.Canonical)
include canonical

theorem localWrites_canonical : writes.localWrites.Canonical :=
  canonical.childCompoundWriteAtPath writes.path

theorem shadowingWriteAtPath_eq (path : FPath K) :
    writes.shadowingWriteAtPath path = writes.localWrites.completeNodeAtPath path :=
  (canonical.completeNodeAtPath_child writes.path path).symm

/-- Any node is the part of some node below the path. -/
theorem applyToNode_local {node : FNode K} (wf : node.WellFormed) (path : FPath K) :
    (writes.writeTree.visibleWrites.applyToNode
      (FNode.emptyNode.updateChild writes.path node)).getChild (writes.path ++ path) =
      (writes.localWrites.applyToNode node).getChild path := by
  have whole := FNode.WellFormed.emptyNode.updateChild wf writes.path
  rw [FNode.getChild_append, ← canonical.applyToNode_getChild whole,
    FNode.getChild_updateChild_self]
  rfl

theorem calculateCompleteEventCache_some {node : FNode K} (wf : node.WellFormed) :
    writes.calculateCompleteEventCacheWithCompleteServerCache (some node) =
      some (writes.localWrites.applyToNode node) := by
  have whole := FNode.WellFormed.emptyNode.updateChild wf writes.path
  have answer := FWriteTree.calculateCompleteEventCacheAtPath_eq canonical whole writes.path
  have read := applyToNode_local canonical wf []
  rw [FNode.getChild_updateChild_self] at answer
  rw [List.append_nil, FNode.getChild_nil] at read
  rw [← read]
  exact answer

theorem calculateCompleteEventCache_none :
    writes.calculateCompleteEventCacheWithCompleteServerCache none =
      writes.localWrites.completeNodeAtPath [] := by
  have answer := FWriteTree.calculateCompleteEventCacheAtPath_none writes.writeTree writes.path
  refine answer.trans ?_
  have child := canonical.completeNodeAtPath_child writes.path []
  rw [List.append_nil] at child
  exact child.symm

theorem calculateEventCacheAfterServerOverwrite_eq {node : FNode K} (wf : node.WellFormed)
    {path : FPath K} (free : writes.localWrites.completeNodeAtPath path = none) :
    writes.calculateEventCacheAfterServerOverwriteWithChildPath path node =
      some ((writes.localWrites.applyToNode node).getChild path) := by
  have whole := FNode.WellFormed.emptyNode.updateChild wf writes.path
  have answer := FWriteTree.calculateEventCacheAfterServerOverwriteAtPath_eq canonical whole
    writes.path path
  have uncovered : (writes.writeTree.shadowingWriteAtPath (writes.path ++ path)).isSome = false := by
    have shadowing := shadowingWriteAtPath_eq canonical path
    rw [free] at shadowing
    exact congrArg Option.isSome shadowing
  rw [uncovered, FNode.getChild_updateChild_self, applyToNode_local canonical wf] at answer
  exact answer

theorem calculateCompleteChild_eq {cache : FCacheNode K} (wf : cache.node.WellFormed)
    {childKey : K} (complete : cache.isCompleteForChild childKey = true) :
    writes.calculateCompleteChild childKey cache =
      some ((writes.localWrites.applyToNode cache.node).getChild [childKey]) := by
  have whole := FNode.WellFormed.emptyNode.updateChild wf writes.path
  have node : cache.node = (FNode.emptyNode.updateChild writes.path cache.node).getChild
      writes.path := (FNode.getChild_updateChild_self _ _ _).symm
  have answer := FWriteTree.calculateCompleteChildAtPath_eq canonical whole writes.path node
    complete
  rw [applyToNode_local canonical wf] at answer
  exact answer

end Answers

end FWriteTreeRef

/-! ## What a view should show -/

namespace FViewCache

/-- The server's data under the writes, where it or a write is complete. -/
def expected (write : FCompoundWrite K) (viewCache : FViewCache K) : Option (FNode K) :=
  match write.completeNodeAtPath [] with
  | some node => some node
  | none => viewCache.completeServerSnap.map write.applyToNode

structure Unfiltered (viewCache : FViewCache K) : Prop where
  event : viewCache.cachedEventSnap.isFiltered = false
  server : viewCache.cachedServerSnap.isFiltered = false

/-- The event node is the expected one, up to equality. -/
structure UpToDate (numbers : NumberEquality) (write : FCompoundWrite K)
    (viewCache : FViewCache K) :
    Prop where
  unfiltered : viewCache.Unfiltered
  shows : ∀ node, expected write viewCache = some node →
    viewCache.cachedEventSnap.isFullyInitialized = true ∧
      FNode.Same numbers viewCache.cachedEventSnap.node node

omit [LinearOrder K] [StringComparator K] in
theorem completeServerSnap_eq_some {viewCache : FViewCache K} {node : FNode K} :
    viewCache.completeServerSnap = some node ↔
      viewCache.cachedServerSnap.isFullyInitialized = true ∧
        viewCache.cachedServerSnap.node = node := by
  unfold completeServerSnap
  split
  · next complete => simp [complete]
  · next incomplete => simp [incomplete]

omit [StringComparator K] in
theorem expected_of_complete {write : FCompoundWrite K} {viewCache : FViewCache K}
    (free : write.completeNodeAtPath [] = none)
    (complete : viewCache.cachedServerSnap.isFullyInitialized = true) :
    expected write viewCache = some (write.applyToNode viewCache.cachedServerSnap.node) := by
  unfold expected
  rw [free, completeServerSnap_eq_some.mpr ⟨complete, rfl⟩]
  rfl

omit [StringComparator K] in
theorem expected_of_incomplete {write : FCompoundWrite K} {viewCache : FViewCache K}
    (free : write.completeNodeAtPath [] = none)
    (incomplete : viewCache.cachedServerSnap.isFullyInitialized = false) :
    expected write viewCache = none := by
  unfold expected completeServerSnap
  rw [free, incomplete]
  rfl

/-- Where the server's data is complete, a write that covers everything agrees with it. -/
theorem expected_of_server {write : FCompoundWrite K} (canonical : write.Canonical)
    {viewCache : FViewCache K} (wf : viewCache.cachedServerSnap.node.WellFormed)
    (complete : viewCache.cachedServerSnap.isFullyInitialized = true) :
    expected write viewCache = some (write.applyToNode viewCache.cachedServerSnap.node) := by
  cases covered : write.completeNodeAtPath [] with
  | none => exact expected_of_complete covered complete
  | some node =>
      have shown := canonical.getChild_applyToNode wf covered
      rw [FNode.getChild_nil] at shown
      unfold expected
      rw [covered, shown]

theorem calculateCompleteEventCache_eq {writes : FWriteTreeRef K}
    (canonical : writes.writeTree.visibleWrites.Canonical) {viewCache : FViewCache K}
    (sound : viewCache.Sound) :
    writes.calculateCompleteEventCacheWithCompleteServerCache viewCache.completeServerSnap =
      expected writes.localWrites viewCache := by
  cases complete : viewCache.cachedServerSnap.isFullyInitialized with
  | true =>
      rw [completeServerSnap_eq_some.mpr ⟨complete, rfl⟩,
        FWriteTreeRef.calculateCompleteEventCache_some canonical sound.server,
        expected_of_server (FWriteTreeRef.localWrites_canonical canonical) sound.server complete]
  | false =>
      have none : viewCache.completeServerSnap = none := by
        simp [completeServerSnap, complete]
      rw [none, FWriteTreeRef.calculateCompleteEventCache_none canonical]
      unfold expected
      cases covered : writes.localWrites.completeNodeAtPath [] with
      | none => simp [none]
      | some node => rfl

end FViewCache

/-! ## What changes where -/

/-- The server holds no leaf strictly above a write. -/
def Unburied (write : FCompoundWrite K) (server : FNode K) : Prop :=
  ∀ path node, write.nodeAt path = some node → ¬ server.BelowLeaf path

omit [StringComparator K] in
theorem Unburied.leafAt_above {write : FCompoundWrite K} {server : FNode K}
    (unburied : Unburied write server) {found query : FPath K} {node : FNode K}
    (held : write.nodeAt found = some node) (above : query <+: found) (apart : query ≠ found) :
    server.leafAt query = none :=
  FNode.leafAt_above_of_not_belowLeaf (unburied found node held) above apart

namespace FCompoundWrite

variable {write : FCompoundWrite K} {server snap : FNode K} {path : FPath K}

theorem Canonical.complete_below (canonical : write.Canonical) {node : FNode K}
    (covered : write.completeNodeAtPath path = some node) (below : FPath K) :
    write.completeNodeAtPath (path ++ below) = some (node.getChild below) := by
  obtain ⟨found, rest, value, rfl, held, rfl⟩ := canonical.completeNodeAtPath_eq_some.mp covered
  rw [List.append_assoc, canonical.completeNodeAtPath held, FNode.getChild_append]

theorem Canonical.root_free (canonical : write.Canonical)
    (free : write.completeNodeAtPath path = none) : write.completeNodeAtPath [] = none := by
  cases covered : write.completeNodeAtPath [] with
  | none => rfl
  | some node =>
      have below := canonical.complete_below covered path
      rw [List.nil_append, free] at below
      cases below

/-- A write that is nowhere at, above or below a path leaves the part there alone. -/
theorem Canonical.getChild_untouched (canonical : write.Canonical) (wf : server.WellFormed)
    (free : write.completeNodeAtPath path = none)
    (bare : ∀ below, write.nodeAt (path ++ below) = none) :
    (write.applyToNode server).getChild path = server.getChild path := by
  have empty : (write.childCompoundWriteAtPath path).isEmpty = true :=
    (canonical.childCompoundWriteAtPath path).tree.isEmpty_iff.mpr fun below =>
      (child_of_free free below).trans (bare below)
  rw [← canonical.applyToNode_getChild wf, FWriteTree.applyToNode_of_isEmpty empty]

omit [StringComparator K] in
theorem leafAt_updateChild_apart {query : FPath K} (apart : ¬ LeafMap.Comparable path query) :
    (server.updateChild path snap).leafAt query = server.leafAt query := by
  rw [FNode.leafAt_updateChild,
    LeafMap.Write.apply_of_not_touches fun touched => apart touched.comparable]

/-- New server data at a path that no write covers: the shown node changes at the path only. -/
theorem Canonical.carry_server (canonical : write.Canonical) (wf : server.WellFormed)
    (snapWf : snap.WellFormed) (unburied : Unburied write server)
    (free : write.completeNodeAtPath path = none) :
    (write.applyToNode server).updateChild path
        ((write.applyToNode (server.updateChild path snap)).getChild path) =
      write.applyToNode (server.updateChild path snap) := by
  have newWf := wf.updateChild snapWf path
  have placed : (server.updateChild path snap).getChild path = snap :=
    FNode.getChild_updateChild_self server snap path
  refine FNode.updateChild_getChild_eq (canonical.applyToNode_wellFormed wf)
    (canonical.applyToNode_wellFormed newWf) (fun query apart => ?_)
    fun hollow query above strict => ?_
  · exact canonical.leafAt_applyToNode_base (leafAt_updateChild_apart apart).symm
  · refine canonical.leafAt_applyToNode_base ?_
    have notBelow : ¬ path <+: query := fun under =>
      strict (above.eq_of_length_le under.length_le)
    cases gone : snap.isEmpty with
    | true =>
        rw [FNode.leafAt_updateChild, LeafMap.Write.apply_of_not_touches]
        simp [LeafMap.Write.Touches, FNode.writeOf, gone, notBelow]
    | false =>
        -- Something pending below the path hides the new data, so no leaf was above it.
        have pendingBelow : ∃ below node, write.nodeAt (path ++ below) = some node := by
          by_contra none
          push Not at none
          have bare : ∀ below, write.nodeAt (path ++ below) = Option.none := fun below =>
            Option.eq_none_iff_forall_ne_some.mpr (none below)
          rw [canonical.getChild_untouched newWf free bare, placed, gone] at hollow
          cases hollow
        obtain ⟨below, node, held⟩ := pendingBelow
        have onPath : query <+: path ++ below := above.trans (List.prefix_append path below)
        have apart : query ≠ path ++ below := fun same =>
          notBelow (same ▸ List.prefix_append path below)
        have full : ((server.updateChild path snap).getChild path).isEmpty = false := by
          rw [placed, gone]
        rw [unburied.leafAt_above held onPath apart,
          FNode.leafAt_above_of_full newWf full above strict]

/-- New server data under a write that covers it does not show. -/
theorem Canonical.applyToNode_covered (canonical : write.Canonical) (wf : server.WellFormed)
    (snapWf : snap.WellFormed) (unburied : Unburied write server)
    (unburied' : Unburied write (server.updateChild path snap)) {node : FNode K}
    (covered : write.completeNodeAtPath path = some node) :
    write.applyToNode (server.updateChild path snap) = write.applyToNode server := by
  obtain ⟨found, rest, value, rfl, held, -⟩ := canonical.completeNodeAtPath_eq_some.mp covered
  refine (canonical.applyToNode_wellFormed (wf.updateChild snapWf _)).ext
    (canonical.applyToNode_wellFormed wf) fun query => ?_
  by_cases under : found <+: query
  · obtain ⟨below, rfl⟩ := under
    rw [canonical.leafAt_applyToNode_below held, canonical.leafAt_applyToNode_below held]
  · refine canonical.leafAt_applyToNode_base ?_
    by_cases above : query <+: found
    · have strict : query ≠ found := fun same => under (same ▸ List.prefix_refl _)
      rw [unburied.leafAt_above held above strict, unburied'.leafAt_above held above strict]
    · refine leafAt_updateChild_apart fun near => ?_
      rcases near with deeper | higher
      · exact under ((List.prefix_append found rest).trans deeper)
      · rcases List.prefix_or_prefix_of_prefix higher (List.prefix_append found rest) with
          first | second
        · exact above first
        · exact under second

/-- A write that goes away changes what is shown at and below its path only. -/
theorem AgreeOutside.leafAt_applyToNode {write' : FCompoundWrite K}
    (agree : AgreeOutside path write' write) (unburied : Unburied write server)
    (unburied' : Unburied write' server) {query : FPath K} (outside : ¬ path <+: query) :
    (write'.applyToNode server).leafAt query = (write.applyToNode server).leafAt query := by
  have uncovered := agree.symm.uncovered
  by_cases above : query <+: path
  · have strict : query ≠ path := fun same => outside (same ▸ List.prefix_refl _)
    have free : ∀ between, between <+: query →
        write'.nodeAt between = none ∧ write.nodeAt between = none := by
      intro between onQuery
      have apart : between ≠ path := fun same => outside (same ▸ onQuery)
      exact ⟨agree.uncovered between (onQuery.trans above) apart,
        uncovered between (onQuery.trans above) apart⟩
    by_cases touched : ∃ below node, write'.nodeAt (path ++ below) = some node ∨
        write.nodeAt (path ++ below) = some node
    · obtain ⟨below, node, held⟩ := touched
      have onPath : query <+: path ++ below := above.trans (List.prefix_append path below)
      have apart : query ≠ path ++ below := fun same =>
        outside (same ▸ List.prefix_append path below)
      have noLeaf : server.leafAt query = none := by
        rcases held with now | before
        · exact unburied'.leafAt_above now onPath apart
        · exact unburied.leafAt_above before onPath apart
      rw [agree.leftCanonical.leafAt_applyToNode_eq_none (fun _ onQuery => (free _ onQuery).1) noLeaf,
        agree.rightCanonical.leafAt_applyToNode_eq_none (fun _ onQuery => (free _ onQuery).2) noLeaf]
    · have same : write' = write := by
        refine agree.leftCanonical.ext agree.rightCanonical fun other => ?_
        by_cases under : path <+: other
        · obtain ⟨below, rfl⟩ := under
          push Not at touched
          rw [Option.eq_none_iff_forall_ne_some.mpr fun node => (touched below node).1,
            Option.eq_none_iff_forall_ne_some.mpr fun node => (touched below node).2]
        · exact agree.outside other under
      rw [same]
  · refine FCompoundWrite.Canonical.leafAt_applyToNode_congr agree.leftCanonical
      agree.rightCanonical (fun near comparable => agree.outside near fun under => ?_) server
    rcases comparable with deeper | higher
    · exact outside (under.trans deeper)
    · rcases List.prefix_or_prefix_of_prefix higher under with first | second
      · exact above first
      · exact outside second

end FCompoundWrite

/-! ## The operations, one by one -/

namespace FViewProcessor

open FViewCache

variable {numbers : NumberEquality} {writes : FWriteTreeRef K} {viewCache : FViewCache K}

section ServerData

variable (canonical : writes.writeTree.visibleWrites.Canonical)
include canonical

/-- What has to hold so that taking up the server's data at a path leaves the view up to
date: where a write covers the path it was so before, and elsewhere the event node needs
only its part at the path exchanged. -/
theorem generateEventCache_upToDate (sound : viewCache.Sound) (unfiltered : viewCache.Unfiltered)
    {changePath : FPath K}
    (complete : changePath = [] → viewCache.cachedServerSnap.isFullyInitialized = true)
    (shadowed : (writes.localWrites.completeNodeAtPath changePath).isSome = true →
      UpToDate numbers writes.localWrites viewCache)
    (carried : changePath ≠ [] → writes.localWrites.completeNodeAtPath changePath = none →
      viewCache.cachedServerSnap.isFullyInitialized = true →
        ∃ old, viewCache.cachedEventSnap.isFullyInitialized = true ∧
          FNode.Same numbers viewCache.cachedEventSnap.node old ∧
          old.updateChild changePath
              ((writes.localWrites.applyToNode viewCache.cachedServerSnap.node).getChild
                changePath) =
            writes.localWrites.applyToNode viewCache.cachedServerSnap.node) :
    UpToDate numbers writes.localWrites
      (generateEventCacheAfterServerEvent numbers viewCache changePath writes).1 := by
  have localCanonical := FWriteTreeRef.localWrites_canonical canonical
  have shownWf := localCanonical.applyToNode_wellFormed sound.server
  unfold generateEventCacheAfterServerEvent
  dsimp only
  rw [FWriteTreeRef.shadowingWriteAtPath_eq canonical]
  split
  · next covered => exact shadowed covered
  · next uncovered =>
      have free : writes.localWrites.completeNodeAtPath changePath = none :=
        Option.not_isSome_iff_eq_none.mp uncovered
      refine ⟨⟨rfl, unfiltered.server⟩, fun node shown => ?_⟩
      replace shown : expected writes.localWrites viewCache = some node := shown
      have rootFree := localCanonical.root_free free
      have serverComplete : viewCache.cachedServerSnap.isFullyInitialized = true := by
        cases incomplete : viewCache.cachedServerSnap.isFullyInitialized with
        | true => rfl
        | false =>
            rw [expected_of_incomplete rootFree incomplete] at shown
            cases shown
      rw [expected_of_complete rootFree serverComplete] at shown
      obtain rfl := Option.some.inj shown
      cases changePath with
      | nil =>
          have whole : nodeWithLocalWrites viewCache writes =
              writes.localWrites.applyToNode viewCache.cachedServerSnap.node := by
            unfold nodeWithLocalWrites
            rw [unfiltered.server, calculateCompleteEventCache_eq canonical sound,
              expected_of_complete rootFree serverComplete]
            rfl
          refine ⟨by simp [FViewCache.updateEventSnap], ?_⟩
          simp only [FViewCache.updateEventSnap, FIndexedFilter.updateFullNode_eq, whole]
          exact FNode.Same.refl numbers _
      | cons childKey childChangePath =>
          obtain ⟨old, eventComplete, same, exchanged⟩ :=
            carried (List.cons_ne_nil _ _) free serverComplete
          have known : viewCache.cachedEventSnap.isCompleteForChild childKey = true := by
            simp [FCacheNode.isCompleteForChild, eventComplete, unfiltered.event]
          have child : newEventChild viewCache writes childKey childChangePath =
              some ((viewCache.cachedEventSnap.node.getImmediateChild childKey).updateChild
                childChangePath ((writes.localWrites.applyToNode
                  viewCache.cachedServerSnap.node).getChild (childKey :: childChangePath))) := by
            unfold newEventChild
            simp only [known, ↓reduceIte,
              FWriteTreeRef.calculateEventCacheAfterServerOverwrite_eq canonical sound.server free]
          refine ⟨by simp [FViewCache.updateEventSnap, eventComplete], ?_⟩
          simp only [FViewCache.updateEventSnap, child]
          refine (FIndexedFilter.same_updateChildIn_updated sound.event
            (shownWf.getChild (childKey :: childChangePath)) childKey childChangePath).trans ?_
          have moved := same.updateChild (childKey :: childChangePath)
            ((writes.localWrites.applyToNode viewCache.cachedServerSnap.node).getChild
              (childKey :: childChangePath))
          rwa [exchanged] at moved

omit canonical in
theorem generateEventCache_server (viewCache : FViewCache K) (changePath : FPath K) :
    (generateEventCacheAfterServerEvent numbers viewCache changePath writes).1.cachedServerSnap =
      viewCache.cachedServerSnap := by
  unfold generateEventCacheAfterServerEvent
  dsimp only
  split <;> rfl

end ServerData

omit [StringComparator K] in
/-- The filter leaves the server node alone or puts the data in. -/
theorem newServerNode_cases {serverSnap : FCacheNode K} (serverWf : serverSnap.node.WellFormed)
    {childKey : K} {rest : FPath K} {snap newServer : FNode K} (wf : snap.WellFormed)
    (found : newServerNode numbers serverSnap (childKey :: rest) snap = some newServer) :
    newServer = serverSnap.node ∨ newServer = serverSnap.node.updateChild (childKey :: rest) snap := by
  unfold newServerNode at found
  dsimp only at found
  split at found
  · cases found
  · obtain rfl := Option.some.inj found
    have childWf := (serverWf.getImmediateChild childKey).updateChild wf rest
    by_cases unchanged : FIndexedFilter.Unchanged numbers serverSnap.node childKey
        ((serverSnap.node.getImmediateChild childKey).updateChild rest snap) rest
    · left
      rw [FIndexedFilter.updateChildIn_of_unchanged serverWf childWf unchanged]
    · right
      rw [FIndexedFilter.updateChildIn_of_changed serverWf childWf unchanged,
        FNode.updateChild_cons]

omit [StringComparator K] in
theorem updateChild_getChild_self {node : FNode K} (wf : node.WellFormed) (path : FPath K) :
    node.updateChild path (node.getChild path) = node :=
  FNode.updateChild_getChild_eq wf wf (fun _ _ => rfl) fun _ _ _ _ => rfl

section ServerData

variable (canonical : writes.writeTree.visibleWrites.Canonical)
include canonical

/-- The event node as it was, where the server's data is complete. -/
theorem shows_of_server (upToDate : UpToDate numbers writes.localWrites viewCache)
    (sound : viewCache.Sound)
    (complete : viewCache.cachedServerSnap.isFullyInitialized = true) :
    viewCache.cachedEventSnap.isFullyInitialized = true ∧
      FNode.Same numbers viewCache.cachedEventSnap.node
        (writes.localWrites.applyToNode viewCache.cachedServerSnap.node) :=
  upToDate.shows _ (expected_of_server (FWriteTreeRef.localWrites_canonical canonical) sound.server
    complete)

/-- New server data at a path below the view, with the server node it leads to. -/
theorem takeUpServerNode_upToDate (sound : viewCache.Sound)
    (upToDate : UpToDate numbers writes.localWrites viewCache)
    (unburied : Unburied writes.localWrites viewCache.cachedServerSnap.node) {childKey : K}
    {rest : FPath K} {snap newServer : FNode K} (wf : snap.WellFormed)
    (led : newServer = viewCache.cachedServerSnap.node ∨
      newServer = viewCache.cachedServerSnap.node.updateChild (childKey :: rest) snap)
    (unburied' : Unburied writes.localWrites newServer) :
    UpToDate numbers writes.localWrites
      (generateEventCacheAfterServerEvent numbers
        (viewCache.updateServerSnap newServer viewCache.cachedServerSnap.isFullyInitialized false)
        (childKey :: rest) writes).1 := by
  have localCanonical := FWriteTreeRef.localWrites_canonical canonical
  have newWf : newServer.WellFormed := by
    rcases led with rfl | rfl
    · exact sound.server
    · exact sound.server.updateChild wf _
  have newSound : (viewCache.updateServerSnap newServer
      viewCache.cachedServerSnap.isFullyInitialized false).Sound := ⟨sound.event, newWf⟩
  have newUnfiltered : (viewCache.updateServerSnap newServer
      viewCache.cachedServerSnap.isFullyInitialized false).Unfiltered :=
    ⟨upToDate.unfiltered.event, rfl⟩
  refine generateEventCache_upToDate canonical newSound newUnfiltered
    (fun empty => absurd empty (List.cons_ne_nil _ _))
    (fun covered => ⟨newUnfiltered, fun node shown => ?_⟩) fun _ free serverComplete => ?_
  · refine upToDate.shows node (shown ▸ ?_)
    obtain ⟨covering, complete⟩ := Option.isSome_iff_exists.mp covered
    unfold expected
    cases root : writes.localWrites.completeNodeAtPath [] with
    | some whole => rfl
    | none =>
        have same : writes.localWrites.applyToNode newServer =
            writes.localWrites.applyToNode viewCache.cachedServerSnap.node := by
          rcases led with rfl | rfl
          · rfl
          · exact localCanonical.applyToNode_covered sound.server wf unburied unburied' complete
        cases initialized : viewCache.cachedServerSnap.isFullyInitialized with
        | true =>
            simp [FViewCache.completeServerSnap, FViewCache.updateServerSnap, initialized, same]
        | false =>
            simp [FViewCache.completeServerSnap, FViewCache.updateServerSnap, initialized]
  · obtain ⟨eventComplete, same⟩ := shows_of_server canonical upToDate sound serverComplete
    refine ⟨_, eventComplete, same, ?_⟩
    rcases led with rfl | rfl
    · exact updateChild_getChild_self (localCanonical.applyToNode_wellFormed sound.server) _
    · exact localCanonical.carry_server sound.server wf unburied free

/-- New data for the whole view. -/
theorem takeUpWholeServer_upToDate (sound : viewCache.Sound)
    (upToDate : UpToDate numbers writes.localWrites viewCache) {newServer : FNode K}
    (wf : newServer.WellFormed) :
    UpToDate numbers writes.localWrites
      (generateEventCacheAfterServerEvent numbers (viewCache.updateServerSnap newServer true false)
        [] writes).1 := by
  have newSound : (viewCache.updateServerSnap newServer true false).Sound := ⟨sound.event, wf⟩
  have newUnfiltered : (viewCache.updateServerSnap newServer true false).Unfiltered :=
    ⟨upToDate.unfiltered.event, rfl⟩
  refine generateEventCache_upToDate canonical newSound newUnfiltered (fun _ => rfl)
    (fun covered => ⟨newUnfiltered, fun node shown => ?_⟩) fun nonempty => absurd rfl nonempty
  refine upToDate.shows node (shown ▸ ?_)
  obtain ⟨whole, complete⟩ := Option.isSome_iff_exists.mp covered
  unfold expected
  rw [complete]

theorem applyServerOverwriteTo_upToDate (sound : viewCache.Sound)
    (upToDate : UpToDate numbers writes.localWrites viewCache)
    (unburied : Unburied writes.localWrites viewCache.cachedServerSnap.node)
    (changePath : FPath K) {snap : FNode K} (wf : snap.WellFormed)
    (unburied' : Unburied writes.localWrites
      (applyServerOverwriteTo numbers viewCache changePath snap writes).1.cachedServerSnap.node) :
    UpToDate numbers writes.localWrites
      (applyServerOverwriteTo numbers viewCache changePath snap writes).1 := by
  unfold applyServerOverwriteTo at unburied' ⊢
  cases found : newServerNode numbers viewCache.cachedServerSnap changePath snap with
  | none => simpa only [found] using upToDate
  | some newServer =>
      simp only [found, generateEventCache_server] at unburied' ⊢
      cases changePath with
      | nil =>
          rw [List.isEmpty_nil, Bool.or_true]
          exact takeUpWholeServer_upToDate canonical sound upToDate
            (newServerNode_wellFormed sound.server wf found)
      | cons childKey rest =>
          rw [List.isEmpty_cons, Bool.or_false]
          exact takeUpServerNode_upToDate canonical sound upToDate unburied wf
            (newServerNode_cases sound.server wf found) unburied'

/-- The server says that it has told everything. -/
theorem listenCompleteOldCache_upToDate (sound : viewCache.Sound)
    (upToDate : UpToDate numbers writes.localWrites viewCache)
    (unburied : Unburied writes.localWrites viewCache.cachedServerSnap.node) (path : FPath K) :
    UpToDate numbers writes.localWrites
      (listenCompleteOldCache numbers viewCache path writes).1 := by
  unfold listenCompleteOldCache
  dsimp only
  rw [upToDate.unfiltered.server]
  cases path with
  | nil =>
      rw [List.isEmpty_nil, Bool.or_true]
      exact takeUpWholeServer_upToDate canonical sound upToDate sound.server
  | cons childKey rest =>
      rw [List.isEmpty_cons, Bool.or_false]
      exact takeUpServerNode_upToDate canonical sound upToDate unburied .emptyNode (.inl rfl)
        unburied

omit canonical in
theorem applyServerOverwriteTo_server (viewCache : FViewCache K) (changePath : FPath K)
    (snap : FNode K) :
    (applyServerOverwriteTo numbers viewCache changePath snap writes).1.cachedServerSnap.node =
      (newServerNode numbers viewCache.cachedServerSnap changePath snap).getD
        viewCache.cachedServerSnap.node := by
  unfold applyServerOverwriteTo
  dsimp only
  cases newServerNode numbers viewCache.cachedServerSnap changePath snap with
  | none => rfl
  | some newServer => simp only [generateEventCache_server]; rfl

omit canonical in
/-- A child of the server node is exchanged, or it stays as it is. -/
theorem applyServerOverwriteTo_child (numbers : NumberEquality) (sound : viewCache.Sound)
    (childKey : K) {snap : FNode K} (wf : snap.WellFormed) :
    (∀ other, other ≠ childKey →
      (applyServerOverwriteTo numbers viewCache [childKey] snap
        writes).1.cachedServerSnap.node.getImmediateChild other =
        viewCache.cachedServerSnap.node.getImmediateChild other) ∧
    ∀ value, (applyServerOverwriteTo numbers viewCache [childKey] snap
        writes).1.cachedServerSnap.node.leafAt [] = some value →
      viewCache.cachedServerSnap.node.leafAt [] = some value := by
  rw [applyServerOverwriteTo_server]
  cases found : newServerNode numbers viewCache.cachedServerSnap [childKey] snap with
  | none => exact ⟨fun _ _ => rfl, fun _ held => held⟩
  | some newServer =>
      rw [Option.getD_some]
      rcases newServerNode_cases sound.server wf found with rfl | rfl
      · exact ⟨fun _ _ => rfl, fun _ held => held⟩
      · refine ⟨fun other apart => ?_, fun value held => ?_⟩
        · rw [FNode.getImmediateChild_updateChild, if_neg apart]
        · rw [FNode.leafAt_updateChild] at held
          by_cases touched : (FNode.writeOf [childKey] snap).Touches []
          · rw [LeafMap.Write.apply_of_touches touched,
              LeafMap.Write.valueAt_of_not_below (by simp [FNode.writeOf])] at held
            cases held
          · rwa [LeafMap.Write.apply_of_not_touches touched] at held

/-- Over a merge every child is as before or as after, and a leaf was there before. -/
theorem mergeChildren_server (numbers : NumberEquality) {base : FViewCache K}
    (baseSound : base.Sound)
    {children : List (K × FCompoundWrite K)} (each : ∀ child ∈ children, child.2.Canonical)
    (result : FViewCache K × List (K × FChange K)) (sound : result.1.Sound) :
    (∀ key, key ∉ children.map Prod.fst →
      (children.foldl (mergeChild numbers base writes)
        result).1.cachedServerSnap.node.getImmediateChild key =
        result.1.cachedServerSnap.node.getImmediateChild key) ∧
    ∀ value, (children.foldl (mergeChild numbers base writes)
        result).1.cachedServerSnap.node.leafAt [] = some value →
      result.1.cachedServerSnap.node.leafAt [] = some value := by
  induction children generalizing result with
  | nil => exact ⟨fun _ _ => rfl, fun _ held => held⟩
  | cons child rest ih =>
      have childWf := (each child List.mem_cons_self).applyToNode_wellFormed
        (baseSound.server.getImmediateChild child.1)
      obtain ⟨others, top⟩ := applyServerOverwriteTo_child numbers sound child.1 childWf
      have next : (mergeChild numbers base writes result child).1.Sound :=
        (applyServerOverwriteTo_evolves canonical sound [child.1] childWf).sound
      obtain ⟨restOthers, restTop⟩ := ih (fun later member => each later
        (List.mem_cons_of_mem _ member)) (mergeChild numbers base writes result child) next
      refine ⟨fun key absent => ?_, fun value held => top value (restTop value held)⟩
      rw [List.map_cons, List.mem_cons, not_or] at absent
      exact (restOthers key absent.2).trans (others key absent.1)

theorem mergeChildren_upToDate {base : FViewCache K} (baseSound : base.Sound)
    {children : List (K × FCompoundWrite K)} (each : ∀ child ∈ children, child.2.Canonical)
    (distinct : (children.map Prod.fst).Nodup) (result : FViewCache K × List (K × FChange K))
    (sound : result.1.Sound) (upToDate : UpToDate numbers writes.localWrites result.1)
    (unburied : Unburied writes.localWrites result.1.cachedServerSnap.node)
    (unburied' : Unburied writes.localWrites (children.foldl (mergeChild numbers base writes)
      result).1.cachedServerSnap.node) :
    UpToDate numbers writes.localWrites
      (children.foldl (mergeChild numbers base writes) result).1 := by
  induction children generalizing result with
  | nil => exact upToDate
  | cons child rest ih =>
      obtain ⟨fresh, restDistinct⟩ := List.nodup_cons.mp distinct
      have restEach : ∀ later ∈ rest, later.2.Canonical := fun later member =>
        each later (List.mem_cons_of_mem _ member)
      have childWf := (each child List.mem_cons_self).applyToNode_wellFormed
        (baseSound.server.getImmediateChild child.1)
      obtain ⟨others, top⟩ := applyServerOverwriteTo_child numbers sound child.1 childWf
      have next : (mergeChild numbers base writes result child).1.Sound :=
        (applyServerOverwriteTo_evolves canonical sound [child.1] childWf).sound
      obtain ⟨restOthers, -⟩ := mergeChildren_server canonical numbers baseSound restEach
        (mergeChild numbers base writes result child) next
      -- Between the merge's children the server node is made of old and new ones.
      have between : Unburied writes.localWrites
          (mergeChild numbers base writes result child).1.cachedServerSnap.node := by
        rintro path node held ⟨above, value, onPath, strict, leaf⟩
        cases above with
        | nil => exact unburied path node held ⟨[], value, onPath, strict, top value leaf⟩
        | cons key below =>
            rw [FNode.leafAt_cons] at leaf
            by_cases same : key = child.1
            · have kept := restOthers key (same ▸ fresh)
              refine unburied' path node held ⟨key :: below, value, onPath, strict, ?_⟩
              rw [FNode.leafAt_cons]
              exact kept ▸ leaf
            · refine unburied path node held ⟨key :: below, value, onPath, strict, ?_⟩
              rw [FNode.leafAt_cons, ← others key same]
              exact leaf
      have step := applyServerOverwriteTo_upToDate canonical sound upToDate unburied [child.1]
        childWf between
      exact ih restEach restDistinct (mergeChild numbers base writes result child) next step
        between unburied'

theorem applyServerMergeTo_upToDate (sound : viewCache.Sound)
    (upToDate : UpToDate numbers writes.localWrites viewCache)
    (unburied : Unburied writes.localWrites viewCache.cachedServerSnap.node) (path : FPath K)
    {changedChildren : FCompoundWrite K} (merge : changedChildren.Canonical)
    (unburied' : Unburied writes.localWrites (applyServerMergeTo numbers viewCache path
      changedChildren writes).1.cachedServerSnap.node) :
    UpToDate numbers writes.localWrites
      (applyServerMergeTo numbers viewCache path changedChildren writes).1 := by
  have actual := actualMerge_canonical merge path
  unfold applyServerMergeTo at unburied' ⊢
  dsimp only at unburied' ⊢
  split at unburied'
  · next unknown =>
      rw [if_pos unknown]
      exact upToDate
  · next known =>
      rw [if_neg known]
      refine mergeChildren_upToDate canonical sound (fun child member => ?_) ?_ _ sound upToDate
        unburied unburied'
      · rcases List.mem_append.mp member with held | other
        · exact actual.childCompoundWrites (List.mem_of_mem_filter held)
        · exact actual.childCompoundWrites (List.mem_of_mem_filter other)
      · rw [List.map_append, List.nodup_append]
        have sub : ∀ keep : K × FCompoundWrite K → Bool,
            (((if path.isEmpty then changedChildren
              else FCompoundWrite.emptyWrite.addCompoundWrite changedChildren
                path).childCompoundWrites.filter keep).map Prod.fst).Nodup := fun keep =>
          actual.nodup_childCompoundWrites.sublist (List.filter_sublist.map _)
        refine ⟨sub _, sub _, fun key inHeld other inOthers same => ?_⟩
        obtain ⟨first, firstMember, rfl⟩ := List.mem_map.mp inHeld
        obtain ⟨second, secondMember, rfl⟩ := List.mem_map.mp inOthers
        have present := (List.mem_filter.mp firstMember).2
        have absent := (List.mem_filter.mp secondMember).2
        rw [← same, present] at absent
        cases absent

end ServerData

/-! ## The user's writes -/

section UserWrites

variable {write : FCompoundWrite K}

/-- A write below the root is a step of the expected node. -/
theorem expected_addWrite (canonical : write.Canonical) (sound : viewCache.Sound) {snap : FNode K}
    (wf : snap.WellFormed) {childKey : K} {rest : FPath K}
    (clear : snap.isEmpty = true →
      ¬ viewCache.cachedServerSnap.node.BelowLeaf (childKey :: rest)) :
    expected (write.addWrite snap (childKey :: rest)) viewCache =
      (expected write viewCache).map fun node => node.updateChild (childKey :: rest) snap := by
  have added := canonical.addWrite wf (childKey :: rest)
  unfold expected
  cases root : write.completeNodeAtPath [] with
  | some whole =>
      obtain ⟨found, below, value, split, held, rfl⟩ := canonical.completeNodeAtPath_eq_some.mp root
      obtain ⟨rfl, rfl⟩ := List.append_eq_nil_iff.mp split.symm
      have merged := canonical.nodeAt_addWrite_merged held (childKey :: rest) [] snap
      rw [if_pos rfl, List.nil_append] at merged
      have complete := added.completeNodeAtPath merged []
      rw [List.nil_append, FNode.getChild_nil] at complete
      rw [complete, FNode.getChild_nil]
      rfl
  | none =>
      have bare := FCompoundWrite.completeNodeAtPath_eq_none.mp root [] (List.prefix_refl _)
      have stillFree : (write.addWrite snap (childKey :: rest)).completeNodeAtPath [] = none := by
        refine FCompoundWrite.completeNodeAtPath_eq_none.mpr fun above onPath => ?_
        obtain rfl := List.prefix_nil.mp onPath
        rcases write.merged_or_free (childKey :: rest) with ⟨found, below, value, split, held⟩ | free
        · have apart : ([] : FPath K) ≠ found := by
            rintro rfl
            rw [bare] at held
            cases held
          rw [split, canonical.nodeAt_addWrite_merged held, if_neg apart, bare]
        · rw [FCompoundWrite.nodeAt_addWrite_free free, if_neg (by simp), bare]
      rw [stillFree]
      cases complete : viewCache.completeServerSnap with
      | none => rfl
      | some server =>
          obtain ⟨-, rfl⟩ := completeServerSnap_eq_some.mp complete
          simp only [Option.map_some, canonical.applyToNode_addWrite wf sound.server clear]

theorem applyUserOverwriteTo_upToDate (canonical : write.Canonical) (sound : viewCache.Sound)
    (upToDate : UpToDate numbers write viewCache) (changePath : FPath K) {snap : FNode K}
    (wf : snap.WellFormed)
    (clear : snap.isEmpty = true → ¬ viewCache.cachedServerSnap.node.BelowLeaf changePath)
    (optCompleteCache : Option (FNode K)) :
    UpToDate numbers (write.addWrite snap changePath)
      (applyUserOverwriteTo numbers viewCache changePath snap writes optCompleteCache).1 := by
  unfold applyUserOverwriteTo
  cases changePath with
  | nil =>
      refine ⟨⟨rfl, upToDate.unfiltered.server⟩, fun node shown => ⟨rfl, ?_⟩⟩
      have top : (write.addWrite snap []).nodeAt [] = some snap :=
        (FCompoundWrite.nodeAt_initWithValue snap []).trans (if_pos rfl)
      have complete := (canonical.addWrite wf []).completeNodeAtPath top []
      rw [List.nil_append, FNode.getChild_nil] at complete
      unfold expected at shown
      rw [complete] at shown
      obtain rfl := Option.some.inj shown
      exact FNode.Same.refl numbers _
  | cons childKey rest =>
      dsimp only
      have shows : ∀ node, expected (write.addWrite snap (childKey :: rest)) viewCache = some node →
          viewCache.cachedEventSnap.isFullyInitialized = true ∧
            FNode.Same numbers (viewCache.cachedEventSnap.node.updateChild (childKey :: rest) snap)
              node := by
        intro node shown
        rw [expected_addWrite canonical sound wf clear] at shown
        obtain ⟨old, before, rfl⟩ := Option.map_eq_some_iff.mp shown
        obtain ⟨eventComplete, same⟩ := upToDate.shows old before
        exact ⟨eventComplete, same.updateChild _ _⟩
      have put : viewCache.cachedEventSnap.isFullyInitialized = true →
          newUserChild viewCache writes optCompleteCache childKey rest snap =
            (viewCache.cachedEventSnap.node.getImmediateChild childKey).updateChild rest snap := by
        intro eventComplete
        have known : viewCache.cachedEventSnap.isCompleteForChild childKey = true := by
          simp [FCacheNode.isCompleteForChild, eventComplete, upToDate.unfiltered.event]
        unfold newUserChild completeChild
        simp only [known, ↓reduceIte]
        split
        · next root =>
            rw [List.isEmpty_iff.mp root]
            cases viewCache.cachedEventSnap.node.getImmediateChild childKey <;> rfl
        · rfl
      split
      · next equal =>
          refine ⟨upToDate.unfiltered, fun node shown => ?_⟩
          obtain ⟨eventComplete, same⟩ := shows node shown
          refine ⟨eventComplete, FNode.Same.trans ?_ same⟩
          have childWf := sound.event.getImmediateChild childKey
          rw [put eventComplete,
            FNode.isEqual_iff_same childWf (childWf.updateChild wf rest)] at equal
          rw [FNode.updateChild_cons, ← FNode.updateChild_single]
          refine FNode.same_updateChild sound.event (childWf.updateChild wf rest) ?_
          rwa [FNode.getChild_cons, FNode.getChild_nil]
      · refine ⟨⟨rfl, upToDate.unfiltered.server⟩, fun node shown => ?_⟩
        obtain ⟨eventComplete, same⟩ := shows node shown
        refine ⟨eventComplete, FNode.Same.trans ?_ same⟩
        simp only [FViewCache.updateEventSnap, put eventComplete]
        exact FIndexedFilter.same_updateChildIn_updated sound.event wf childKey rest

/-- What a removed write leaves behind, seen from a view: it was covered and nothing
changes, or nothing covers its path any more. -/
inductive Removed (path : FPath K) (write write' : FCompoundWrite K) : Prop
  | covered (same : write' = write) (complete : (write'.completeNodeAtPath path).isSome = true)
  | uncovered (agree : FCompoundWrite.AgreeOutside path write' write)
      (free : write'.completeNodeAtPath path = none)

omit [StringComparator K] in
/-- The server's own node is put in again: the filter sees no change. -/
theorem newServerNode_self (sound : viewCache.Sound) {path : FPath K}
    (known : (path.isEmpty && viewCache.cachedServerSnap.isFullyInitialized ||
      viewCache.cachedServerSnap.isCompleteForPath path) = true) :
    newServerNode numbers viewCache.cachedServerSnap path
      (viewCache.cachedServerSnap.node.getChild path) = some viewCache.cachedServerSnap.node := by
  cases path with
  | nil => simp [newServerNode]
  | cons childKey rest =>
      have complete : viewCache.cachedServerSnap.isCompleteForPath (childKey :: rest) = true := by
        simpa using known
      have childWf := sound.server.getImmediateChild childKey
      have self : (viewCache.cachedServerSnap.node.getImmediateChild childKey).updateChild rest
          (viewCache.cachedServerSnap.node.getChild (childKey :: rest)) =
            viewCache.cachedServerSnap.node.getImmediateChild childKey := by
        rw [FNode.getChild_cons]
        exact updateChild_getChild_self childWf rest
      unfold newServerNode
      simp only [complete, Bool.not_true, Bool.false_and, Bool.false_eq_true, ↓reduceIte, self]
      rw [FIndexedFilter.updateChildIn_of_unchanged sound.server childWf
        ⟨FNode.Same.refl numbers _, rfl⟩]

omit [StringComparator K] in
/-- While the server's data is incomplete and no write covers the view, there is nothing
to show. -/
theorem upToDate_of_incomplete {result : FViewCache K} (unfiltered : result.Unfiltered)
    (free : write.completeNodeAtPath [] = none)
    (incomplete : result.cachedServerSnap.isFullyInitialized = false) :
    UpToDate numbers write result :=
  ⟨unfiltered, fun node shown => by
    rw [expected_of_incomplete free incomplete] at shown
    cases shown⟩

theorem mergeChildren_flags (base : FViewCache K) (children : List (K × FCompoundWrite K))
    (result : FViewCache K × List (K × FChange K)) (unfiltered : result.1.Unfiltered)
    {complete : Bool} (flag : result.1.cachedServerSnap.isFullyInitialized = complete) :
    (children.foldl (mergeChild numbers base writes) result).1.Unfiltered ∧
      (children.foldl (mergeChild numbers base writes)
        result).1.cachedServerSnap.isFullyInitialized = complete := by
  induction children generalizing result with
  | nil => exact ⟨unfiltered, flag⟩
  | cons child rest ih =>
      have step : (mergeChild numbers base writes result child).1.Unfiltered ∧
          (mergeChild numbers base writes result
            child).1.cachedServerSnap.isFullyInitialized = complete := by
        unfold mergeChild applyServerOverwriteTo
        dsimp only
        split
        · exact ⟨unfiltered, flag⟩
        · rw [generateEventCache_server]
          refine ⟨⟨?_, ?_⟩, by simp [FViewCache.updateServerSnap, flag]⟩
          · unfold generateEventCacheAfterServerEvent
            dsimp only
            split
            · exact unfiltered.event
            · rfl
          · rw [generateEventCache_server]
            rfl
      exact ih (mergeChild numbers base writes result child) step.1 step.2

section Acknowledged

variable (canonical : writes.writeTree.visibleWrites.Canonical) (writeCanonical : write.Canonical)
include canonical writeCanonical

/-- Once a write is gone, the node shown before needs only its part at the write's path
exchanged. -/
theorem exchanged_of_agree (sound : viewCache.Sound) {path : FPath K}
    (agree : FCompoundWrite.AgreeOutside path writes.localWrites write)
    (unburied : Unburied write viewCache.cachedServerSnap.node)
    (unburied' : Unburied writes.localWrites viewCache.cachedServerSnap.node) :
    (write.applyToNode viewCache.cachedServerSnap.node).updateChild path
        ((writes.localWrites.applyToNode viewCache.cachedServerSnap.node).getChild path) =
      writes.localWrites.applyToNode viewCache.cachedServerSnap.node := by
  have localCanonical := FWriteTreeRef.localWrites_canonical canonical
  refine FNode.updateChild_getChild_eq (writeCanonical.applyToNode_wellFormed sound.server)
    (localCanonical.applyToNode_wellFormed sound.server) (fun query apart => ?_)
    fun _ query above strict => ?_
  · exact (agree.leafAt_applyToNode unburied unburied' fun under => apart (.inl under)).symm
  · exact (agree.leafAt_applyToNode unburied unburied' fun under =>
      strict (above.eq_of_length_le under.length_le)).symm

theorem ackUserWriteOn_upToDate (sound : viewCache.Sound)
    (upToDate : UpToDate numbers write viewCache) {path : FPath K}
    (removed : Removed path write writes.localWrites)
    (unburied : Unburied write viewCache.cachedServerSnap.node)
    (unburied' : Unburied writes.localWrites viewCache.cachedServerSnap.node) :
    UpToDate numbers writes.localWrites (ackUserWriteOn numbers viewCache path writes).1 := by
  have localCanonical := FWriteTreeRef.localWrites_canonical canonical
  unfold ackUserWriteOn
  dsimp only
  rw [FWriteTreeRef.shadowingWriteAtPath_eq canonical]
  cases removed with
  | covered same complete =>
      rw [if_pos complete, same]
      exact upToDate
  | uncovered agree free =>
      have rootFree := localCanonical.root_free free
      rw [if_neg (by simp [free])]
      split
      · next known =>
          unfold applyServerOverwriteTo
          simp only [newServerNode_self sound known]
          have newSound : (viewCache.updateServerSnap viewCache.cachedServerSnap.node
              (viewCache.cachedServerSnap.isFullyInitialized || path.isEmpty) false).Sound :=
            ⟨sound.event, sound.server⟩
          refine generateEventCache_upToDate canonical newSound ⟨upToDate.unfiltered.event, rfl⟩
            (fun root => by simp [FViewCache.updateServerSnap, root]) (fun covered => ?_)
            fun nonempty _ complete => ?_
          · rw [free] at covered
            cases covered
          · have serverComplete : viewCache.cachedServerSnap.isFullyInitialized = true := by
              simpa [FViewCache.updateServerSnap, nonempty] using complete
            obtain ⟨eventComplete, same⟩ := upToDate.shows _
              (expected_of_server writeCanonical sound.server serverComplete)
            exact ⟨_, eventComplete, same,
              exchanged_of_agree canonical writeCanonical sound agree unburied unburied'⟩
      · next unknown =>
          have incomplete : viewCache.cachedServerSnap.isFullyInitialized = false := by
            cases path with
            | nil =>
                cases flag : viewCache.cachedServerSnap.isFullyInitialized with
                | false => rfl
                | true => simp [flag] at unknown
            | cons childKey rest =>
                cases flag : viewCache.cachedServerSnap.isFullyInitialized with
                | false => rfl
                | true =>
                    simp [FCacheNode.isCompleteForPath, FCacheNode.isCompleteForChild, flag,
                      upToDate.unfiltered.server] at unknown
          split
          · unfold applyServerMergeTo
            dsimp only
            split
            · exact upToDate_of_incomplete upToDate.unfiltered rootFree
                incomplete
            · obtain ⟨unfiltered, flag⟩ :=
                mergeChildren_flags viewCache _ (viewCache, []) upToDate.unfiltered incomplete
              exact upToDate_of_incomplete unfiltered rootFree flag
          · exact upToDate_of_incomplete upToDate.unfiltered rootFree
              incomplete

/-- The child is put back from the server's data and the writes that are left. -/
theorem withRevertedChild_same (sound : viewCache.Sound)
    (upToDate : UpToDate numbers write viewCache) {childKey : K} {rest : FPath K}
    (agree : FCompoundWrite.AgreeOutside (childKey :: rest) writes.localWrites write)
    (unburied : Unburied write viewCache.cachedServerSnap.node)
    (unburied' : Unburied writes.localWrites viewCache.cachedServerSnap.node)
    (serverComplete : viewCache.cachedServerSnap.isFullyInitialized = true) :
    FNode.Same numbers (withRevertedChild numbers viewCache writes childKey rest).1
      (writes.localWrites.applyToNode viewCache.cachedServerSnap.node) := by
  have localCanonical := FWriteTreeRef.localWrites_canonical canonical
  have shownWf := localCanonical.applyToNode_wellFormed sound.server
  have oldWf := writeCanonical.applyToNode_wellFormed sound.server
  have known : viewCache.cachedServerSnap.isCompleteForChild childKey = true := by
    simp [FCacheNode.isCompleteForChild, serverComplete, upToDate.unfiltered.server]
  have child : revertedChild viewCache writes childKey =
      some ((writes.localWrites.applyToNode viewCache.cachedServerSnap.node).getChild
        [childKey]) := by
    unfold revertedChild
    rw [FWriteTreeRef.calculateCompleteChild_eq canonical sound.server known]
  obtain ⟨-, same⟩ := upToDate.shows _
    (expected_of_server writeCanonical sound.server serverComplete)
  have outside : ∀ query, ¬ childKey :: rest <+: query →
      (writes.localWrites.applyToNode viewCache.cachedServerSnap.node).leafAt query =
        (write.applyToNode viewCache.cachedServerSnap.node).leafAt query :=
    fun query apart => agree.leafAt_applyToNode unburied unburied' apart
  have exchanged : (write.applyToNode viewCache.cachedServerSnap.node).updateChild [childKey]
      ((writes.localWrites.applyToNode viewCache.cachedServerSnap.node).getChild [childKey]) =
        writes.localWrites.applyToNode viewCache.cachedServerSnap.node := by
    refine FNode.updateChild_getChild_eq oldWf shownWf (fun query apart => ?_)
      fun _ query above strict => ?_
    · refine (outside query fun under => apart (.inl ?_)).symm
      exact (List.prefix_append [childKey] rest).trans under
    · refine (outside query fun under => strict ?_).symm
      exact above.eq_of_length_le (Nat.le_trans (by simp) under.length_le)
  unfold withRevertedChild
  rw [child]
  dsimp only
  refine (FIndexedFilter.same_updateChildIn sound.event (shownWf.getChild [childKey])
    fun unchanged => ?_).trans ?_
  · intro below
    by_cases inside : rest <+: below
    · obtain ⟨deeper, rfl⟩ := inside
      have part := unchanged.1 deeper
      rwa [FNode.leafAt_getChild, FNode.leafAt_getChild] at part
    · have part := same (childKey :: below)
      rw [← outside _ fun under => inside (List.cons_prefix_cons.mp under).2] at part
      rw [← FNode.leafAt_cons, FNode.leafAt_getChild]
      exact part
  · have moved := same.updateChild [childKey]
      ((writes.localWrites.applyToNode viewCache.cachedServerSnap.node).getChild [childKey])
    rwa [exchanged] at moved

theorem revertUserWriteOn_upToDate (sound : viewCache.Sound)
    (upToDate : UpToDate numbers write viewCache) {path : FPath K}
    (removed : Removed path write writes.localWrites)
    (unburied : Unburied write viewCache.cachedServerSnap.node)
    (unburied' : Unburied writes.localWrites viewCache.cachedServerSnap.node) :
    UpToDate numbers writes.localWrites (revertUserWriteOn numbers viewCache path writes).1 := by
  have localCanonical := FWriteTreeRef.localWrites_canonical canonical
  unfold revertUserWriteOn
  dsimp only
  rw [FWriteTreeRef.shadowingWriteAtPath_eq canonical]
  cases removed with
  | covered same complete =>
      rw [if_pos complete, same]
      exact upToDate
  | uncovered agree free =>
      have rootFree := localCanonical.root_free free
      rw [if_neg (by simp [free])]
      cases serverComplete : viewCache.cachedServerSnap.isFullyInitialized with
      | false =>
          refine upToDate_of_incomplete ⟨rfl, upToDate.unfiltered.server⟩ rootFree ?_
          exact serverComplete
      | true =>
          have shown := expected_of_complete rootFree serverComplete
          refine ⟨⟨rfl, upToDate.unfiltered.server⟩, fun node expects => ⟨by rfl, ?_⟩⟩
          replace expects : expected writes.localWrites viewCache = some node := expects
          rw [shown] at expects
          obtain rfl := Option.some.inj expects
          cases path with
          | nil =>
              have whole : revertedNode viewCache writes =
                  writes.localWrites.applyToNode viewCache.cachedServerSnap.node := by
                unfold revertedNode
                rw [if_pos serverComplete, calculateCompleteEventCache_eq canonical sound, shown]
                rfl
              simp only [FViewCache.updateEventSnap, FIndexedFilter.updateFullNode_eq, whole]
              exact FNode.Same.refl numbers _
          | cons childKey rest =>
              have step := withRevertedChild_same canonical writeCanonical sound upToDate agree
                unburied unburied' serverComplete
              dsimp only [FViewCache.updateEventSnap]
              split
              · rw [calculateCompleteEventCache_eq canonical sound, shown]
                split
                · next leaf =>
                    rw [Option.some.inj leaf]
                    exact FNode.Same.refl numbers _
                · exact step
              · exact step

end Acknowledged

end UserWrites

end FViewProcessor

end PicksOnMap.Source
