import PicksOnMap.Guarantees.SyncPoints

/-!
# Every listener has the server's data under the pending writes

Source pin: Pods/FirebaseDatabase, FSyncTree.m:160-277,364-456,460-540,559-571,742-816;
FSyncPoint.m:75-208.

A run of the sync tree: writes of the user, their acknowledgements and rejections, data
of the server, registrations that come and go, in any order. In every state each
view is up to date, and each registration was told so.
-/
namespace PicksOnMap.Source

open Support Support.SortedEntries FViewCache FViewProcessor

variable {K : Type} [LinearOrder K] [StringComparator K]

/-- The pending writes as a path sees them, oldest first. -/
def pendingAt (path : FPath K) (records : List (FWriteRecord K)) : List (FPath K × FNode K) :=
  (FWriteTree.pending records).filterMap (relativeWrite path)

theorem wellFormed_pendingAt {path : FPath K} {records : List (FWriteRecord K)}
    (sound : ∀ record ∈ records, record.Sound) :
    ∀ entry ∈ pendingAt path records, entry.2.WellFormed := by
  intro entry member
  obtain ⟨whole, held, seen⟩ := List.mem_filterMap.mp member
  exact relativeWrite_wellFormed (FWriteTree.wellFormed_pending sound whole held) seen

theorem localWrites_eq {writeTree : FWriteTree K} (consistent : writeTree.Consistent)
    (path : FPath K) :
    (⟨path, writeTree⟩ : FWriteTreeRef K).localWrites =
      FCompoundWrite.emptyWrite.addAll (pendingAt path writeTree.allWrites) := by
  unfold FWriteTreeRef.localWrites
  rw [consistent.visibleWrites_eq, FCompoundWrite.child_addAll FCompoundWrite.canonical_emptyWrite
    path (FWriteTree.wellFormed_pending consistent.sound),
    FCompoundWrite.childCompoundWriteAtPath_emptyWrite]
  rfl

/-- Writes of which none lies below a leaf of the server's node are not buried in it. -/
theorem unburied_addAll {writes : List (FPath K × FNode K)}
    (wf : ∀ entry ∈ writes, entry.2.WellFormed) {server : FNode K}
    (clear : ∀ entry ∈ writes, ¬ server.BelowLeaf entry.1) :
    Unburied (FCompoundWrite.emptyWrite.addAll writes) server := by
  intro path node held
  rcases FCompoundWrite.canonical_emptyWrite.exists_of_addAll wf held with
    ⟨entry, member, rfl⟩ | ⟨old, oldThere⟩
  · exact clear entry member
  · rw [FCompoundWrite.nodeAt_emptyWrite] at oldThere
    cases oldThere

namespace FViewProcessor

variable {numbers : NumberEquality} {writes : FWriteTreeRef K} {viewCache : FViewCache K}

/-- The server's operations keep a view up to date. -/
theorem serverOperation_upToDate (canonical : writes.writeTree.visibleWrites.Canonical)
    (sound : viewCache.Sound) (upToDate : UpToDate numbers writes.localWrites viewCache)
    (unburied : Unburied writes.localWrites viewCache.cachedServerSnap.node)
    {operation : FOperation K} (operationSound : operation.Sound) (server : operation.FromServer)
    (serverCache : Option (FNode K))
    (unburied' : Unburied writes.localWrites
      (updateCaches numbers viewCache operation writes serverCache).1.cachedServerSnap.node) :
    UpToDate numbers writes.localWrites
      (updateCaches numbers viewCache operation writes serverCache).1 := by
  cases operation with
  | overwrite source path snap =>
      obtain rfl : source = .server := server
      exact applyServerOverwriteTo_upToDate canonical sound upToDate unburied path operationSound
        unburied'
  | merge path children =>
      exact applyServerMergeTo_upToDate canonical sound upToDate unburied path operationSound
        unburied'
  | ackUserWrite path revert => cases server
  | listenComplete path =>
      exact listenCompleteOldCache_upToDate canonical sound upToDate unburied path

omit [StringComparator K] in
theorem applyUserOverwriteTo_server (viewCache : FViewCache K) (changePath : FPath K)
    (changedSnap : FNode K) (writes : FWriteTreeRef K) (serverCache : Option (FNode K)) :
    (applyUserOverwriteTo numbers viewCache changePath changedSnap writes
      serverCache).1.cachedServerSnap = viewCache.cachedServerSnap := by
  unfold applyUserOverwriteTo
  cases changePath with
  | nil => rfl
  | cons childKey rest =>
      dsimp only
      split <;> rfl

end FViewProcessor

namespace FSyncTree

variable {numbers : NumberEquality}

/-- No pending write lies strictly below a leaf of a view's server data. -/
def Clear (tree : FSyncTree K (Listener K)) : Prop :=
  ∀ path view, tree.syncPointTree.valueAtPath path = some view →
    ∀ entry ∈ pendingAt path tree.pendingWriteTree.allWrites,
      ¬ view.viewCache.cachedServerSnap.node.BelowLeaf entry.1

/-- The application writes with `setValue` only. -/
def OnlyOverwrites (writeTree : FWriteTree K) : Prop :=
  ∀ record ∈ writeTree.allWrites, ∃ node, record.data = .overwrite node

structure Coherent (numbers : NumberEquality) (tree : FSyncTree K (Listener K)) : Prop where
  wellFormed : tree.syncPointTree.WellFormed
  consistent : tree.pendingWriteTree.Consistent
  overwrites : OnlyOverwrites tree.pendingWriteTree
  informed : ∀ path view, tree.syncPointTree.valueAtPath path = some view →
    FView.Informed numbers view
  upToDate : ∀ path view, tree.syncPointTree.valueAtPath path = some view →
    UpToDate numbers (⟨path, tree.pendingWriteTree⟩ : FWriteTreeRef K).localWrites view.viewCache

theorem Coherent.allSound {tree : FSyncTree K (Listener K)} (coherent : Coherent numbers tree) :
    AllSound tree.syncPointTree :=
  fun path view held => (coherent.informed path view held).sound

theorem Clear.unburied {tree : FSyncTree K (Listener K)} (clear : Clear tree)
    (consistent : tree.pendingWriteTree.Consistent) {path : FPath K} {view : FView K (Listener K)}
    (held : tree.syncPointTree.valueAtPath path = some view) :
    Unburied (⟨path, tree.pendingWriteTree⟩ : FWriteTreeRef K).localWrites
      view.viewCache.cachedServerSnap.node := by
  rw [localWrites_eq consistent]
  exact unburied_addAll (wellFormed_pendingAt consistent.sound) (clear path view held)

/-- An operation over the whole tree, with the pending writes as they are now. Each view
must come out up to date with them. -/
theorem applyOperation_coherent {tree tree' : FSyncTree K (Listener K)} {operation : FOperation K}
    (applied : tree.applyOperationToSyncPoints numbers Listener.hear operation = some tree')
    (operationSound : operation.Sound) (wf : tree.syncPointTree.WellFormed)
    (consistent : tree.pendingWriteTree.Consistent)
    (overwrites : OnlyOverwrites tree.pendingWriteTree)
    (informed : ∀ path view, tree.syncPointTree.valueAtPath path = some view →
      FView.Informed numbers view)
    (unreached : ∀ path view, tree.syncPointTree.valueAtPath path = some view →
      operation.operationAt path = none →
        UpToDate numbers (⟨path, tree.pendingWriteTree⟩ : FWriteTreeRef K).localWrites
          view.viewCache)
    (reached : ∀ path view relative serverCache view',
      tree.syncPointTree.valueAtPath path = some view →
      operation.operationAt path = some relative →
      tree'.syncPointTree.valueAtPath path = some view' →
      view'.viewCache = (updateCaches numbers view.viewCache relative
        ⟨path, tree.pendingWriteTree⟩ serverCache).1 →
        UpToDate numbers (⟨path, tree.pendingWriteTree⟩ : FWriteTreeRef K).localWrites
          view'.viewCache) :
    Coherent numbers tree' := by
  have sound : AllSound tree.syncPointTree := fun path view held => (informed path view held).sound
  obtain ⟨tree'', same, writes, -, wf', each⟩ := applyOperationToSyncPoints_spec numbers
    Listener.hear wf sound consistent.canonical operationSound
  obtain rfl := Option.some.inj (applied.symm.trans same)
  -- Each view of the new tree comes from one of the old tree.
  have origin : ∀ path view', tree'.syncPointTree.valueAtPath path = some view' →
      FView.Informed numbers view' ∧
        UpToDate numbers (⟨path, tree.pendingWriteTree⟩ : FWriteTreeRef K).localWrites
          view'.viewCache := by
    intro path view' held'
    have here := each path
    cases held : tree.syncPointTree.valueAtPath path with
    | none =>
        rw [held] at here
        have gone : tree'.syncPointTree.valueAtPath path = none := here
        rw [gone] at held'
        cases held'
    | some view =>
        have known := informed path view held
        unfold AppliedAt at here
        rw [held] at here
        cases reaches : operation.operationAt path with
        | none =>
            simp only [reaches] at here
            rw [here] at held'
            obtain rfl := Option.some.inj held'
            exact ⟨known, unreached path view held reaches⟩
        | some relative =>
            simp only [reaches, List.nil_append] at here
            obtain ⟨serverCache, next, serverWf, called, there⟩ := here
            obtain rfl := Option.some.inj (held'.symm.trans there)
            have relativeSound := operationSound.operationAt reaches
            have canonical :
                (⟨path, tree.pendingWriteTree⟩ :
                  FWriteTreeRef K).writeTree.visibleWrites.Canonical :=
              consistent.canonical
            obtain ⟨same', applied', -, caches⟩ := FView.applyOperation_eq_some canonical
              relativeSound serverWf numbers Listener.hear view known.sound
            obtain rfl := Option.some.inj (called.symm.trans applied')
            exact ⟨known.applyOperation canonical relativeSound serverWf called,
              reached path view relative serverCache _ held reaches held' caches⟩
  rw [← writes] at consistent overwrites origin
  exact ⟨wf', consistent, overwrites, fun path view held => (origin path view held).1,
    fun path view held => (origin path view held).2⟩

theorem applyOperationToSyncPoints_pendingWriteTree {tree tree' : FSyncTree K (Listener K)}
    {operation : FOperation K}
    (applied : tree.applyOperationToSyncPoints numbers Listener.hear operation = some tree') :
    tree'.pendingWriteTree = tree.pendingWriteTree := by
  obtain ⟨syncPointTree, -, rest⟩ := Option.bind_eq_some_iff.mp applied
  obtain rfl := Option.some.inj rest
  rfl

/-! ## Data of the server -/

theorem Coherent.serverOperation {tree tree' : FSyncTree K (Listener K)}
    (coherent : Coherent numbers tree) (clear : Clear tree) {operation : FOperation K}
    (operationSound : operation.Sound) (server : operation.FromServer)
    (applied : tree.applyOperationToSyncPoints numbers Listener.hear operation = some tree')
    (clear' : Clear tree') : Coherent numbers tree' := by
  have writes := applyOperationToSyncPoints_pendingWriteTree applied
  refine applyOperation_coherent applied operationSound coherent.wellFormed
    coherent.consistent coherent.overwrites coherent.informed
    (fun path view held _ => coherent.upToDate path view held) ?_
  intro path view relative serverCache view' held reaches held' caches
  have unburied' := clear'.unburied (writes ▸ coherent.consistent) held'
  rw [writes, caches] at unburied'
  rw [caches]
  exact serverOperation_upToDate coherent.consistent.canonical
    (coherent.informed path view held).sound (coherent.upToDate path view held)
    (clear.unburied coherent.consistent held) (operationSound.operationAt reaches)
    (server.operationAt reaches) serverCache unburied'

/-! ## Writes of the user -/

theorem Coherent.applyUserOverwriteAtPath {tree tree' : FSyncTree K (Listener K)}
    (coherent : Coherent numbers tree) {path : FPath K} {newData : FNode K}
    (wf : newData.WellFormed)
    {writeId : Int}
    (called : tree.applyUserOverwriteAtPath numbers Listener.hear path newData writeId true =
      some tree')
    (clear' : Clear tree') : Coherent numbers tree' := by
  have consistent := coherent.consistent.addOverwriteAtPath path wf writeId
  have applied : applyOperationToSyncPoints numbers Listener.hear
      { tree with pendingWriteTree :=
          tree.pendingWriteTree.addOverwriteAtPath path newData writeId true }
      (.overwrite .user path newData) = some tree' := called
  have writes := applyOperationToSyncPoints_pendingWriteTree applied
  have overwrites : OnlyOverwrites
      (tree.pendingWriteTree.addOverwriteAtPath path newData writeId true) := by
    intro record member
    rcases List.mem_append.mp member with old | new
    · exact coherent.overwrites record old
    · exact ⟨newData, by rw [List.mem_singleton.mp new]; rfl⟩
  have unseenWrites : ∀ query, relativeWrite query (path, newData) = none →
      (⟨query, tree.pendingWriteTree.addOverwriteAtPath path newData writeId true⟩ :
        FWriteTreeRef K).localWrites =
          (⟨query, tree.pendingWriteTree⟩ : FWriteTreeRef K).localWrites := by
    intro query unseen
    have child := FCompoundWrite.child_addWrite coherent.consistent.canonical query
      (path, newData) wf
    rw [unseen] at child
    exact child
  have seenWrites : ∀ query entry, relativeWrite query (path, newData) = some entry →
      (⟨query, tree.pendingWriteTree.addOverwriteAtPath path newData writeId true⟩ :
        FWriteTreeRef K).localWrites =
          (⟨query, tree.pendingWriteTree⟩ : FWriteTreeRef K).localWrites.addWrite entry.2
            entry.1 := by
    intro query entry seen
    have child := FCompoundWrite.child_addWrite coherent.consistent.canonical query
      (path, newData) wf
    rw [seen] at child
    exact child
  refine applyOperation_coherent applied wf coherent.wellFormed consistent overwrites
    coherent.informed ?_ ?_
  · intro query view held unreached
    have unseen := FOperation.operationAt_overwrite .user query (path, newData)
    rw [unreached] at unseen
    rw [unseenWrites query (Option.map_eq_none_iff.mp unseen.symm)]
    exact coherent.upToDate query view held
  · intro query view relative serverCache view' held reaches held' caches
    rw [FOperation.operationAt_overwrite .user query (path, newData)] at reaches
    obtain ⟨entry, seen, rfl⟩ := Option.map_eq_some_iff.mp reaches
    have sound := (coherent.informed query view held).sound
    have oldCanonical : (⟨query, tree.pendingWriteTree⟩ : FWriteTreeRef K).localWrites.Canonical :=
      FWriteTreeRef.localWrites_canonical coherent.consistent.canonical
    have server : view'.viewCache.cachedServerSnap = view.viewCache.cachedServerSnap := by
      rw [caches]
      exact applyUserOverwriteTo_server _ _ _ _ _
    have listed : entry ∈ pendingAt query tree'.pendingWriteTree.allWrites := by
      rw [writes]
      refine List.mem_filterMap.mpr ⟨(path, newData), ?_, seen⟩
      exact FWriteTree.mem_pending.mpr ⟨_, List.mem_append_right _ List.mem_cons_self, by
        simp [FWriteRecord.elementary, FWriteRecord.initWithOverwrite]⟩
    have clear := clear' query view' held' entry listed
    rw [server] at clear
    rw [seenWrites query entry seen, caches]
    exact applyUserOverwriteTo_upToDate oldCanonical sound (coherent.upToDate query view held)
      entry.1 (relativeWrite_wellFormed wf seen) (fun _ => clear) serverCache

/-- No older pending write lies above, at or below the write of the identifier. -/
def AnsweredInOrder (writeTree : FWriteTree K) (writeId : Int) : Prop :=
  ∀ before record after, writeTree.allWrites = before ++ record :: after →
    record.writeId = writeId → (∀ other ∈ before, other.writeId ≠ writeId) →
      ∀ entry ∈ FWriteTree.pending before, ¬ LeafMap.Comparable entry.1 record.path

omit [LinearOrder K] [StringComparator K] in
theorem removable_of_answeredInOrder {writeTree : FWriteTree K}
    (overwrites : OnlyOverwrites writeTree) {before after : List (FWriteRecord K)}
    {record : FWriteRecord K} (split : writeTree.allWrites = before ++ record :: after)
    (apart : ∀ entry ∈ FWriteTree.pending before, ¬ LeafMap.Comparable entry.1 record.path) :
    FWriteTree.Removable before record after where
  older := fun entry member above => absurd (.inl above) (apart entry member)
  inside := by
    intro other member entry inside below
    have kept : other ∈ writeTree.allWrites := by
      rw [split]
      rcases List.mem_append.mp member with old | new
      · exact List.mem_append_left _ old
      · exact List.mem_append_right _ (List.mem_cons_of_mem _ new)
    obtain ⟨node, data⟩ := overwrites other kept
    simp only [FWriteRecord.elementary, data, List.mem_singleton] at inside
    rwa [inside] at below

omit [LinearOrder K] [StringComparator K] in
theorem writeForId_eq {writeTree : FWriteTree K} {before after : List (FWriteRecord K)}
    {record : FWriteRecord K} {writeId : Int}
    (split : writeTree.allWrites = before ++ record :: after)
    (identified : record.writeId = writeId) (first : ∀ other ∈ before, other.writeId ≠ writeId) :
    writeTree.writeForId writeId = some record := by
  unfold FWriteTree.writeForId
  have absent : before.find? (fun write => decide (write.writeId = writeId)) = none := by
    simpa using first
  rw [split, List.find?_append, absent, List.find?_cons_of_pos (by simpa using identified)]
  rfl

section Removal

variable (before after : List (FWriteRecord K)) {record : FWriteRecord K} {node : FNode K}
  (data : record.data = .overwrite node)
include data

omit [StringComparator K] in
/-- A record that a path does not see leaves its writes as they are. -/
theorem pendingAt_of_unseen {path : FPath K}
    (unseen : relativeWrite path (record.path, node) = none) :
    pendingAt path (before ++ record :: after) = pendingAt path (before ++ after) := by
  simp [pendingAt, FWriteTree.pending, FWriteRecord.elementary, data, unseen]

omit [StringComparator K] in
theorem pendingAt_of_seen {path : FPath K} {entry : FPath K × FNode K}
    (seen : relativeWrite path (record.path, node) = some entry) :
    pendingAt path (before ++ record :: after) =
      pendingAt path before ++ entry :: pendingAt path after := by
  simp [pendingAt, FWriteTree.pending, FWriteRecord.elementary, data, seen]

end Removal

omit [StringComparator K] in
theorem pendingAt_append (path : FPath K) (first second : List (FWriteRecord K)) :
    pendingAt path (first ++ second) = pendingAt path first ++ pendingAt path second := by
  simp [pendingAt, FWriteTree.pending]

omit [StringComparator K] in
theorem mem_pendingAt_of_removed {path : FPath K} {before after : List (FWriteRecord K)}
    {record : FWriteRecord K} {entry : FPath K × FNode K}
    (member : entry ∈ pendingAt path (before ++ after)) :
    entry ∈ pendingAt path (before ++ record :: after) := by
  have split : pendingAt path (before ++ record :: after) =
      pendingAt path before ++ (pendingAt path [record] ++ pendingAt path after) := by
    rw [← pendingAt_append, ← pendingAt_append, List.singleton_append]
  rw [pendingAt_append, List.mem_append] at member
  rw [split, List.mem_append, List.mem_append]
  exact member.imp id .inr

omit [LinearOrder K] [StringComparator K] in
theorem OnlyOverwrites.removed {writeTree writeTree' : FWriteTree K}
    (overwrites : OnlyOverwrites writeTree) {before after : List (FWriteRecord K)}
    {record : FWriteRecord K} (split : writeTree.allWrites = before ++ record :: after)
    (allWrites : writeTree'.allWrites = before ++ after) : OnlyOverwrites writeTree' := by
  intro other member
  refine overwrites other ?_
  rw [allWrites, List.mem_append] at member
  rw [split, List.mem_append]
  exact member.imp id (List.mem_cons_of_mem _)

/-- An overwrite that a path sees, apart from the older writes, leaves as a whole. -/
theorem removed_of_seen (before after : List (FWriteRecord K)) {record : FWriteRecord K}
    {node : FNode K}
    (data : record.data = .overwrite node) {path : FPath K} {entry : FPath K × FNode K}
    (seen : relativeWrite path (record.path, node) = some entry)
    (wf : ∀ other ∈ pendingAt path (before ++ record :: after), other.2.WellFormed)
    (apart : ∀ entry ∈ FWriteTree.pending before, ¬ LeafMap.Comparable entry.1 record.path) :
    Removed entry.1 (FCompoundWrite.emptyWrite.addAll (pendingAt path (before ++ record :: after)))
      (FCompoundWrite.emptyWrite.addAll (pendingAt path (before ++ after))) := by
  have olderApart : ∀ other ∈ pendingAt path before, ¬ LeafMap.Comparable other.1 entry.1 := by
    intro other member near
    obtain ⟨origin, held, originSeen⟩ := List.mem_filterMap.mp member
    exact apart origin held (relativeWrite_comparable originSeen seen near)
  rw [pendingAt_of_seen before after data seen] at wf
  rw [pendingAt_of_seen before after data seen, pendingAt_append]
  exact FCompoundWrite.removed_of_apart wf olderApart

theorem Coherent.ackUserWriteWithWriteId {tree tree' : FSyncTree K (Listener K)}
    (coherent : Coherent numbers tree) (clear : Clear tree) {writeId : Int} {revert : Bool}
    (ordered : AnsweredInOrder tree.pendingWriteTree writeId)
    (called : tree.ackUserWriteWithWriteId numbers Listener.hear writeId revert = some tree') :
    Coherent numbers tree' := by
  obtain ⟨write, found, called⟩ := Option.bind_eq_some_iff.mp called
  obtain ⟨⟨needToReevaluate, pendingWriteTree⟩, removed, called⟩ :=
    Option.bind_eq_some_iff.mp called
  dsimp only at called
  obtain ⟨before, record, after, split, identified, first, allWrites, outcome⟩ :=
    FWriteTree.removeWriteId_eq_some removed
  have apart := ordered before record after split identified first
  obtain rfl : record = write := by
    rw [writeForId_eq split identified first] at found
    exact Option.some.inj found
  have consistent := coherent.consistent.removeWriteId removed fun before' record' after' split'
      identified' first' => removable_of_answeredInOrder coherent.overwrites split'
    (ordered before' record' after' split' identified' first')
  have overwrites := coherent.overwrites.removed split allWrites
  obtain ⟨node, data⟩ := coherent.overwrites record (by simp [split])
  have wholeWf : ∀ path, ∀ entry ∈ pendingAt path (before ++ record :: after),
      entry.2.WellFormed := fun path => split ▸ wellFormed_pendingAt coherent.consistent.sound
  have old : ∀ path, (⟨path, tree.pendingWriteTree⟩ : FWriteTreeRef K).localWrites =
      FCompoundWrite.emptyWrite.addAll (pendingAt path (before ++ record :: after)) :=
    fun path => split ▸ localWrites_eq coherent.consistent path
  have new : ∀ path, (⟨path, pendingWriteTree⟩ : FWriteTreeRef K).localWrites =
      FCompoundWrite.emptyWrite.addAll (pendingAt path (before ++ after)) :=
    fun path => allWrites ▸ localWrites_eq consistent path
  split at called
  · -- The write may have been visible.
    refine applyOperation_coherent called trivial coherent.wellFormed consistent overwrites
      coherent.informed ?_ ?_
    · intro path view held unreached
      rw [FOperation.operationAt_ackUserWrite, Option.map_eq_none_iff,
        ← relativeWrite_path path (record.path, node), Option.map_eq_none_iff] at unreached
      have same := coherent.upToDate path view held
      rw [old, pendingAt_of_unseen before after data unreached] at same
      rw [new]
      exact same
    · intro path view relative serverCache view' held reaches held' caches
      rw [FOperation.operationAt_ackUserWrite, ← relativeWrite_path path (record.path, node),
        Option.map_map] at reaches
      obtain ⟨entry, seen, rfl⟩ := Option.map_eq_some_iff.mp reaches
      have leaves : Removed entry.1 (⟨path, tree.pendingWriteTree⟩ : FWriteTreeRef K).localWrites
          (⟨path, pendingWriteTree⟩ : FWriteTreeRef K).localWrites := by
        rw [old, new]
        exact removed_of_seen before after data seen (wholeWf path) apart
      have unburied := clear.unburied coherent.consistent held
      have unburied' : Unburied (⟨path, pendingWriteTree⟩ : FWriteTreeRef K).localWrites
          view.viewCache.cachedServerSnap.node := by
        rw [new]
        refine unburied_addAll
          (fun other member => wholeWf path other (mem_pendingAt_of_removed member))
          fun other member => clear path view held other ?_
        rw [split]
        exact mem_pendingAt_of_removed member
      have sound := (coherent.informed path view held).sound
      have shown := coherent.upToDate path view held
      have writeCanonical :
          (⟨path, tree.pendingWriteTree⟩ : FWriteTreeRef K).localWrites.Canonical :=
        FWriteTreeRef.localWrites_canonical coherent.consistent.canonical
      have canonical :
          (⟨path, pendingWriteTree⟩ : FWriteTreeRef K).writeTree.visibleWrites.Canonical :=
        consistent.canonical
      rw [caches]
      cases revert with
      | true =>
          exact revertUserWriteOn_upToDate canonical writeCanonical sound shown leaves unburied
            unburied'
      | false =>
          exact ackUserWriteOn_upToDate canonical writeCanonical sound shown leaves unburied
            unburied'
  · next notVisible =>
      obtain rfl := Option.some.inj called
      have sameWrites : pendingWriteTree.visibleWrites = tree.pendingWriteTree.visibleWrites := by
        rcases outcome with ⟨-, -, same⟩ | ⟨-, visible, -⟩
        · exact same
        · exact absurd visible notVisible
      refine ⟨coherent.wellFormed, consistent, overwrites, coherent.informed, ?_⟩
      intro path view held
      have same := coherent.upToDate path view held
      unfold FWriteTreeRef.localWrites at same ⊢
      rw [sameWrites]
      exact same

theorem Coherent.removeAllWrites {tree tree' : FSyncTree K (Listener K)}
    (coherent : Coherent numbers tree) (clear : Clear tree)
    (called : tree.removeAllWrites numbers Listener.hear = some tree') :
    Coherent numbers tree' := by
  have consistent : tree.pendingWriteTree.removeAllWrites.2.Consistent :=
    ⟨by simp [FWriteTree.removeAllWrites], by simp [FWriteTree.removeAllWrites], rfl⟩
  have overwrites : OnlyOverwrites tree.pendingWriteTree.removeAllWrites.2 := by
    simp [OnlyOverwrites, FWriteTree.removeAllWrites]
  have new : ∀ path,
      (⟨path, tree.pendingWriteTree.removeAllWrites.2⟩ : FWriteTreeRef K).localWrites =
      FCompoundWrite.emptyWrite :=
    fun path => FCompoundWrite.childCompoundWriteAtPath_emptyWrite path
  unfold FSyncTree.removeAllWrites at called
  dsimp only at called
  split at called
  · next bare =>
      obtain rfl := Option.some.inj called
      refine ⟨coherent.wellFormed, consistent, overwrites, coherent.informed, ?_⟩
      intro path view held
      have noWrites : tree.pendingWriteTree.allWrites = [] := List.isEmpty_iff.mp bare
      have same := coherent.upToDate path view held
      rw [localWrites_eq coherent.consistent, noWrites] at same
      rw [new]
      exact same
  · refine applyOperation_coherent called trivial coherent.wellFormed consistent overwrites
      coherent.informed ?_ ?_
    · intro path view held unreached
      rw [FOperation.operationAt_ackUserWrite] at unreached
      cases path <;> cases unreached
    · intro path view relative serverCache view' held reaches held' caches
      rw [FOperation.operationAt_ackUserWrite] at reaches
      obtain rfl : relative = .ackUserWrite [] true := by
        cases path <;> exact (Option.some.inj reaches).symm
      have sound := (coherent.informed path view held).sound
      have writeCanonical :
          (⟨path, tree.pendingWriteTree⟩ : FWriteTreeRef K).localWrites.Canonical :=
        FWriteTreeRef.localWrites_canonical coherent.consistent.canonical
      have canonical : (⟨path, tree.pendingWriteTree.removeAllWrites.2⟩ :
          FWriteTreeRef K).writeTree.visibleWrites.Canonical := consistent.canonical
      have nothing : ∀ query : FPath K, FCompoundWrite.emptyWrite.nodeAt query = none :=
        FCompoundWrite.nodeAt_emptyWrite
      have leaves : Removed [] (⟨path, tree.pendingWriteTree⟩ : FWriteTreeRef K).localWrites
          (⟨path, tree.pendingWriteTree.removeAllWrites.2⟩ : FWriteTreeRef K).localWrites := by
        rw [new]
        refine .uncovered ⟨FCompoundWrite.canonical_emptyWrite, writeCanonical, ?_, ?_⟩ ?_
        · exact fun query apart => absurd List.nil_prefix apart
        · exact fun above _ _ => nothing above
        · exact FCompoundWrite.completeNodeAtPath_eq_none.mpr fun above _ => nothing above
      have unburied' : Unburied (⟨path, tree.pendingWriteTree.removeAllWrites.2⟩ :
          FWriteTreeRef K).localWrites view.viewCache.cachedServerSnap.node := by
        intro query node held
        rw [new, nothing] at held
        cases held
      rw [caches]
      exact revertUserWriteOn_upToDate canonical writeCanonical sound
        (coherent.upToDate path view held) leaves (clear.unburied coherent.consistent held)
        unburied'

/-! ## Registrations -/

/-- The views change by registrations only; the pending writes stay. -/
theorem Coherent.withSyncPoints {tree tree' : FSyncTree K (Listener K)}
    (coherent : Coherent numbers tree) (wf : tree'.syncPointTree.WellFormed)
    (writes : tree'.pendingWriteTree = tree.pendingWriteTree)
    (each : ∀ path view, tree'.syncPointTree.valueAtPath path = some view →
      tree.syncPointTree.valueAtPath path = some view ∨ FView.Informed numbers view ∧
        UpToDate numbers (⟨path, tree.pendingWriteTree⟩ : FWriteTreeRef K).localWrites
          view.viewCache) :
    Coherent numbers tree' := by
  refine ⟨wf, writes ▸ coherent.consistent, writes ▸ coherent.overwrites, ?_, ?_⟩
  · intro path view held
    exact (each path view held).elim (coherent.informed path view) And.left
  · intro path view held
    rw [writes]
    exact (each path view held).elim (coherent.upToDate path view) And.right

omit [StringComparator K] in
theorem completeServerCacheAtPath_wellFormed {view : FSyncPoint K (Listener K)}
    (sound : view.viewCache.Sound) {path : FPath K} {node : FNode K}
    (complete : view.completeServerCacheAtPath path = some node) : node.WellFormed := by
  obtain ⟨cache, held, rfl⟩ := Option.map_eq_some_iff.mp complete
  exact (sound.completeServerSnap held).getChild path

theorem serverCacheForQuery_wellFormed {tree : FSyncTree K (Listener K)}
    (wf : tree.syncPointTree.WellFormed) (sound : AllSound tree.syncPointTree) (path : FPath K) :
    (tree.serverCacheForQuery path).node.WellFormed := by
  have nothing : ∀ node, (none : Option (FNode K)) = some node → node.WellFormed :=
    fun _ absent => nomatch absent
  have onPath := FImmutableTree.forEachOnPathSoFar_of_step
    (fun cache : Option (FNode K) => ∀ node, cache = some node → node.WellFormed)
    (fun pathToSyncPoint (syncPoint : FSyncPoint K (Listener K)) _ =>
      let serverCacheNode := syncPoint.completeServerCacheAtPath
        (FPath.within pathToSyncPoint path)
      (serverCacheNode.isNone, serverCacheNode))
    (fun _ above view _ held _ node complete =>
      completeServerCacheAtPath_wellFormed (sound above view held) complete)
    path [] nothing
  unfold serverCacheForQuery
  dsimp only
  split
  · next node found => exact onPath node found
  · dsimp only
    have subtreeWf := wf.subtreeAtPath path
    have childSound : ∀ child ∈ (tree.syncPointTree.subtreeAtPath path).children, ∀ view,
        child.2.value = some view → view.viewCache.Sound := by
      intro child member view held
      have found := FImmutableTree.get?_of_mem subtreeWf.sorted member
      refine sound (path ++ [child.1]) view ?_
      rw [← FImmutableTree.valueAtPath_subtreeAtPath, FImmutableTree.valueAtPath_cons,
        FImmutableTree.valueAtPath_nil]
      simpa [FImmutableTree.childAt, found] using held
    unfold FImmutableTree.forEachChild
    generalize (tree.syncPointTree.subtreeAtPath path).children = children at childSound
    have emptyWf : (FNode.emptyNode : FNode K).WellFormed := .emptyNode
    generalize FNode.emptyNode = start at emptyWf ⊢
    induction children generalizing start with
    | nil => exact emptyWf
    | cons child rest ih =>
        refine ih (fun later member => childSound later (List.mem_cons_of_mem _ member)) _ ?_
        have here := childSound child List.mem_cons_self
        cases held : child.2.value with
        | none => simpa only [held] using emptyWf
        | some view =>
            simp only [held]
            split
            · next cache complete =>
                exact emptyWf.updateImmediateChild
                  (completeServerCacheAtPath_wellFormed (here view held) complete) child.1
            · exact emptyWf

/-- A new view shows what is pending over what the server sent, and its listener is told. -/
theorem addEventRegistrationForNonExistingView_spec {writeTree : FWriteTree K}
    (canonical : writeTree.visibleWrites.Canonical) {serverCache : FCacheNode K}
    (serverWf : serverCache.node.WellFormed) (path : FPath K) :
    FView.Informed numbers (FSyncPoint.addEventRegistrationForNonExistingView numbers Listener.hear
      Listener.new ⟨path, writeTree⟩ serverCache) ∧
    UpToDate numbers (⟨path, writeTree⟩ : FWriteTreeRef K).localWrites
      (FSyncPoint.addEventRegistrationForNonExistingView numbers Listener.hear Listener.new
        ⟨path, writeTree⟩ serverCache).viewCache := by
  have refCanonical : (⟨path, writeTree⟩ : FWriteTreeRef K).writeTree.visibleWrites.Canonical :=
    canonical
  have serverSnap : ∀ node,
      (if serverCache.isFullyInitialized then some serverCache.node else none) = some node →
        node.WellFormed := by
    intro node held
    split at held
    · exact Option.some.inj held ▸ serverWf
    · cases held
  unfold FSyncPoint.addEventRegistrationForNonExistingView
  dsimp only
  cases answer : (⟨path, writeTree⟩ :
      FWriteTreeRef K).calculateCompleteEventCacheWithCompleteServerCache
      (if serverCache.isFullyInitialized then some serverCache.node else none) with
  | some eventCache =>
      have eventWf : eventCache.WellFormed :=
        FWriteTree.calculateCompleteEventCacheAtPath_wellFormed canonical serverSnap answer
      have sound : FViewCache.Sound ⟨⟨eventCache, true, false⟩, serverCache⟩ := ⟨eventWf, serverWf⟩
      refine ⟨(FView.initWithInitialViewCache_informed sound).addEventRegistration, ⟨rfl, rfl⟩,
        fun node shown => ⟨rfl, ?_⟩⟩
      rw [← calculateCompleteEventCache_eq refCanonical ⟨eventWf, serverWf⟩] at shown
      obtain rfl := Option.some.inj (answer.symm.trans shown)
      exact FNode.Same.refl numbers _
  | none =>
      have eventWf : ((⟨path, writeTree⟩ :
          FWriteTreeRef K).calculateCompleteEventChildrenWithCompleteServerChildren
            serverCache.node).WellFormed :=
        FWriteTree.calculateCompleteEventChildrenAtPath_wellFormed canonical path serverWf
      have sound : FViewCache.Sound ⟨⟨_, false, false⟩, serverCache⟩ := ⟨eventWf, serverWf⟩
      refine ⟨(FView.initWithInitialViewCache_informed sound).addEventRegistration, ⟨rfl, rfl⟩,
        fun node shown => ?_⟩
      rw [← calculateCompleteEventCache_eq refCanonical ⟨eventWf, serverWf⟩] at shown
      cases answer.symm.trans shown

theorem Coherent.addEventRegistration {tree : FSyncTree K (Listener K)}
    (coherent : Coherent numbers tree) (path : FPath K) :
    Coherent numbers (tree.addEventRegistration numbers Listener.hear Listener.new path) := by
  have put : ∀ (syncPoint : FSyncPoint K (Listener K)) (listening : List (FPath K)),
      FView.Informed numbers syncPoint →
      UpToDate numbers (⟨path, tree.pendingWriteTree⟩ : FWriteTreeRef K).localWrites
        syncPoint.viewCache →
      Coherent numbers ⟨tree.syncPointTree.setValue syncPoint path, tree.pendingWriteTree,
        listening⟩ := by
    intro syncPoint listening informed upToDate
    refine coherent.withSyncPoints (coherent.wellFormed.setValue syncPoint path) rfl ?_
    intro query view held
    rw [FImmutableTree.valueAtPath_setValue] at held
    split at held
    · next same =>
        obtain rfl := Option.some.inj held
        exact .inr ⟨informed, same ▸ upToDate⟩
    · exact .inl held
  unfold FSyncTree.addEventRegistration
  dsimp only
  cases held : tree.syncPointTree.valueAtPath path with
  | some syncPoint =>
      exact put _ _ (coherent.informed path syncPoint held).addEventRegistration
        (coherent.upToDate path syncPoint held)
  | none =>
      have serverWf := serverCacheForQuery_wellFormed coherent.wellFormed coherent.allSound path
      obtain ⟨informed, upToDate⟩ := addEventRegistrationForNonExistingView_spec
        coherent.consistent.canonical serverWf path
      dsimp only
      split
      · exact put _ _ informed upToDate
      · exact put _ _ informed upToDate

theorem Coherent.removeEventRegistration {tree : FSyncTree K (Listener K)}
    (coherent : Coherent numbers tree) (isMatch : Option (Listener K → Bool)) (path : FPath K)
    (cancelError : Bool) :
    Coherent numbers (tree.removeEventRegistration isMatch path cancelError) := by
  unfold FSyncTree.removeEventRegistration
  cases held : tree.syncPointTree.valueAtPath path with
  | none => exact coherent
  | some syncPoint =>
      dsimp only
      split
      · refine coherent.withSyncPoints (coherent.wellFormed.removeValueAtPath path) rfl ?_
        intro query view there
        rw [FImmutableTree.valueAtPath_removeValueAtPath] at there
        split at there
        · cases there
        · exact .inl there
      · refine coherent.withSyncPoints (coherent.wellFormed.setValue _ path) rfl ?_
        intro query view there
        rw [FImmutableTree.valueAtPath_setValue] at there
        split at there
        · next same =>
            obtain rfl := Option.some.inj there
            exact .inr ⟨(coherent.informed path syncPoint held).removeEventRegistration isMatch,
              same ▸ coherent.upToDate path syncPoint held⟩
        · exact .inl there

/-! ## Runs -/

inductive Call (K : Type) where
  | applyUserOverwriteAtPath (path : FPath K) (newData : FNode K) (writeId : Int)
  | ackUserWriteWithWriteId (writeId : Int) (revert : Bool)
  | removeAllWrites
  | applyServerOverwriteAtPath (path : FPath K) (newData : FNode K)
  | applyServerMergeAtPath (path : FPath K) (changedChildren : FCompoundWrite K)
  | applyListenCompleteAtPath (path : FPath K)
  | addEventRegistration (path : FPath K)
  | removeEventRegistration (isMatch : Option (Listener K → Bool)) (path : FPath K)
      (cancelError : Bool)

def call (numbers : NumberEquality) (tree : FSyncTree K (Listener K)) :
    Call K → Option (FSyncTree K (Listener K))
  | .applyUserOverwriteAtPath path newData writeId =>
      tree.applyUserOverwriteAtPath numbers Listener.hear path newData writeId true
  | .ackUserWriteWithWriteId writeId revert =>
      tree.ackUserWriteWithWriteId numbers Listener.hear writeId revert
  | .removeAllWrites => tree.removeAllWrites numbers Listener.hear
  | .applyServerOverwriteAtPath path newData =>
      tree.applyServerOverwriteAtPath numbers Listener.hear path newData
  | .applyServerMergeAtPath path changedChildren =>
      tree.applyServerMergeAtPath numbers Listener.hear path changedChildren
  | .applyListenCompleteAtPath path => tree.applyListenCompleteAtPath numbers Listener.hear path
  | .addEventRegistration path =>
      some (tree.addEventRegistration numbers Listener.hear Listener.new path)
  | .removeEventRegistration isMatch path cancelError =>
      some (tree.removeEventRegistration isMatch path cancelError)

/-- Data is well formed; an answer is to a pending write, and to none with an older
one in its way. -/
def Call.Sound (tree : FSyncTree K (Listener K)) : Call K → Prop
  | .applyUserOverwriteAtPath _ newData _ => newData.WellFormed
  | .ackUserWriteWithWriteId writeId _ =>
      (∃ record ∈ tree.pendingWriteTree.allWrites, record.writeId = writeId) ∧
        AnsweredInOrder tree.pendingWriteTree writeId
  | .applyServerOverwriteAtPath _ newData => newData.WellFormed
  | .applyServerMergeAtPath _ changedChildren => changedChildren.Canonical
  | _ => True

theorem Coherent.call {tree tree' : FSyncTree K (Listener K)} (coherent : Coherent numbers tree)
    (clear : Clear tree) {step : Call K} (sound : step.Sound tree)
    (called : tree.call numbers step = some tree') (clear' : Clear tree') :
    Coherent numbers tree' := by
  cases step with
  | applyUserOverwriteAtPath path newData writeId =>
      exact coherent.applyUserOverwriteAtPath sound called clear'
  | ackUserWriteWithWriteId writeId revert =>
      exact coherent.ackUserWriteWithWriteId clear sound.2 called
  | removeAllWrites => exact coherent.removeAllWrites clear called
  | applyServerOverwriteAtPath path newData =>
      have operationSound : (FOperation.overwrite .server path newData).Sound := sound
      exact coherent.serverOperation clear operationSound rfl called clear'
  | applyServerMergeAtPath path changedChildren =>
      have operationSound : (FOperation.merge path changedChildren).Sound := sound
      exact coherent.serverOperation clear operationSound trivial called clear'
  | applyListenCompleteAtPath path =>
      have operationSound : (FOperation.listenComplete path).Sound := trivial
      exact coherent.serverOperation clear operationSound trivial called clear'
  | addEventRegistration path =>
      obtain rfl := Option.some.inj called
      exact coherent.addEventRegistration path
  | removeEventRegistration isMatch path cancelError =>
      obtain rfl := Option.some.inj called
      exact coherent.removeEventRegistration isMatch path cancelError

theorem removeWriteId_isSome {writeTree : FWriteTree K} {writeId : Int}
    (pending : ∃ record ∈ writeTree.allWrites, record.writeId = writeId) :
    ∃ removed, writeTree.removeWriteId writeId = some removed := by
  have found : (writeTree.allWrites.findIdx? fun record =>
      decide (record.writeId = writeId)).isSome = true := by
    simpa using pending
  obtain ⟨index, position⟩ := Option.isSome_iff_exists.mp found
  obtain ⟨inside, -, -⟩ := List.findIdx?_eq_some_iff_getElem.mp position
  unfold FWriteTree.removeWriteId
  simp only [position, List.getElem?_eq_getElem inside]
  split
  · exact ⟨_, rfl⟩
  · split <;> exact ⟨_, rfl⟩

/-- A sound call raises nothing. -/
theorem Coherent.call_eq_some {tree : FSyncTree K (Listener K)} (coherent : Coherent numbers tree)
    {step : Call K} (sound : step.Sound tree) : ∃ tree', tree.call numbers step = some tree' := by
  have applies : ∀ (writeTree : FWriteTree K) {operation : FOperation K},
      writeTree.visibleWrites.Canonical → operation.Sound →
        ∃ tree', applyOperationToSyncPoints numbers Listener.hear
          { tree with pendingWriteTree := writeTree } operation = some tree' := by
    intro writeTree operation canonical operationSound
    have wf : ({ tree with pendingWriteTree := writeTree } :
        FSyncTree K (Listener K)).syncPointTree.WellFormed := coherent.wellFormed
    obtain ⟨tree', applied, -⟩ := applyOperationToSyncPoints_spec numbers Listener.hear wf
      coherent.allSound canonical operationSound
    exact ⟨tree', applied⟩
  have canonical := coherent.consistent.canonical
  cases step with
  | applyUserOverwriteAtPath path newData writeId =>
      have operationSound : (FOperation.overwrite .user path newData).Sound := sound
      exact applies _ (coherent.consistent.addOverwriteAtPath path sound writeId).canonical
        operationSound
  | ackUserWriteWithWriteId writeId revert =>
      obtain ⟨pending, ordered⟩ := sound
      obtain ⟨⟨needToReevaluate, pendingWriteTree⟩, removed⟩ := removeWriteId_isSome pending
      obtain ⟨before, record, after, split, identified, first, -, -⟩ :=
        FWriteTree.removeWriteId_eq_some removed
      have consistent := coherent.consistent.removeWriteId removed fun before' record' after'
          split' identified' first' => removable_of_answeredInOrder coherent.overwrites split'
        (ordered before' record' after' split' identified' first')
      have operationSound : (FOperation.ackUserWrite record.path revert).Sound := trivial
      obtain ⟨tree', applied⟩ := applies pendingWriteTree consistent.canonical operationSound
      unfold FSyncTree.call FSyncTree.ackUserWriteWithWriteId
      simp only [writeForId_eq split identified first, removed, Option.bind_eq_bind,
        Option.bind_some]
      split
      · exact ⟨tree', applied⟩
      · exact ⟨_, rfl⟩
  | removeAllWrites =>
      unfold FSyncTree.call FSyncTree.removeAllWrites
      dsimp only
      split
      · exact ⟨_, rfl⟩
      · have operationSound : (FOperation.ackUserWrite ([] : FPath K) true).Sound := trivial
        exact applies _ FCompoundWrite.canonical_emptyWrite operationSound
  | applyServerOverwriteAtPath path newData =>
      have operationSound : (FOperation.overwrite .server path newData).Sound := sound
      exact applies _ canonical operationSound
  | applyServerMergeAtPath path changedChildren =>
      have operationSound : (FOperation.merge path changedChildren).Sound := sound
      exact applies _ canonical operationSound
  | applyListenCompleteAtPath path =>
      have operationSound : (FOperation.listenComplete path).Sound := trivial
      exact applies _ canonical operationSound
  | addEventRegistration path => exact ⟨_, rfl⟩
  | removeEventRegistration isMatch path cancelError => exact ⟨_, rfl⟩

/-- The trees of a run in which no write ever comes to lie below a leaf of the server. -/
inductive Reached (numbers : NumberEquality) : FSyncTree K (Listener K) → Prop
  | init : Reached numbers init
  | call {tree tree' : FSyncTree K (Listener K)} (reached : Reached numbers tree) (step : Call K)
      (sound : step.Sound tree) (called : tree.call numbers step = some tree')
      (clear : Clear tree') : Reached numbers tree'

omit [StringComparator K] in
theorem clear_init : Clear (init : FSyncTree K (Listener K)) := by
  intro path view held
  rw [init, FImmutableTree.valueAtPath_empty] at held
  cases held

theorem coherent_init : Coherent numbers (init : FSyncTree K (Listener K)) := by
  have noViews : ∀ path view, (init : FSyncTree K (Listener K)).syncPointTree.valueAtPath path ≠
      some view := by
    intro path view held
    rw [init, FImmutableTree.valueAtPath_empty] at held
    cases held
  exact ⟨FImmutableTree.empty_wellFormed, FWriteTree.init_consistent,
    (fun _ member => nomatch member), fun path view held => absurd held (noViews path view),
    fun path view held => absurd held (noViews path view)⟩

theorem Reached.coherent {tree : FSyncTree K (Listener K)} (reached : Reached numbers tree) :
    Coherent numbers tree ∧ Clear tree := by
  induction reached with
  | init => exact ⟨coherent_init, clear_init⟩
  | call reached step sound called clear' ih =>
      obtain ⟨coherent, clear⟩ := ih
      exact ⟨coherent.call clear sound called clear', clear'⟩

/-- The server's data with the pending writes that a path sees put in, oldest first. -/
def localData (path : FPath K) (records : List (FWriteRecord K)) (server : FNode K) : FNode K :=
  (pendingAt path records).foldl (fun node entry => node.updateChild entry.1 entry.2) server

section Samples

/-- A listener comes, the server sends its data, and the whole of it is written anew. -/
def sampleListened : FSyncTree SampleKey (Listener SampleKey) :=
  init.addEventRegistration FView.sampleNumbers Listener.hear Listener.new []

def sampleSent : FSyncTree SampleKey (Listener SampleKey) :=
  (sampleListened.applyServerOverwriteAtPath FView.sampleNumbers Listener.hear []
    FWriteTree.sampleServer).getD init

def sampleWritten : FSyncTree SampleKey (Listener SampleKey) :=
  (sampleSent.applyUserOverwriteAtPath FView.sampleNumbers Listener.hear []
    (.leaf (.string "new")) 0 true).getD init

omit [StringComparator K] in
/-- A write of everything lies below no leaf. -/
theorem clear_of_root {tree : FSyncTree K (Listener K)}
    (root : ∀ write ∈ FWriteTree.pending tree.pendingWriteTree.allWrites, write.1 = []) :
    Clear tree := by
  rintro path view held entry member ⟨above, value, onPath, apart, leaf⟩
  obtain ⟨write, pending, seen⟩ := List.mem_filterMap.mp member
  have relative := relativeWrite_path path write
  have rooted : FPath.seenFrom path [] = some [] := by cases path <;> rfl
  rw [seen, root write pending, rooted] at relative
  rw [Option.some.inj relative] at onPath apart
  exact apart (List.prefix_nil.mp onPath)

theorem sampleWritten_reached : Reached FView.sampleNumbers sampleWritten := by
  have listened : Reached FView.sampleNumbers sampleListened :=
    Reached.init.call (.addEventRegistration []) trivial rfl
      (clear_of_root fun _ member => nomatch member)
  have sent : Reached FView.sampleNumbers sampleSent :=
    listened.call (.applyServerOverwriteAtPath [] FWriteTree.sampleServer)
      FWriteTree.sampleServer_wellFormed rfl (clear_of_root fun _ member => nomatch member)
  refine sent.call (.applyUserOverwriteAtPath [] (.leaf (.string "new")) 0) (.leaf _) rfl
    (clear_of_root fun write member => ?_)
  have paths : (FWriteTree.pending sampleWritten.pendingWriteTree.allWrites).map Prod.fst =
      [[]] := rfl
  have listed : write.1 ∈ (FWriteTree.pending sampleWritten.pendingWriteTree.allWrites).map
      Prod.fst := List.mem_map.mpr ⟨write, member, rfl⟩
  rw [paths] at listed
  exact List.mem_singleton.mp listed

end Samples

end FSyncTree

end PicksOnMap.Source
