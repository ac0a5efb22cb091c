import PicksOnMap.Guarantees.PendingWrites

/-!
# Local data: the server's data under the pending writes

Source pin: Pods/FirebaseDatabase, FWriteTree.m:178-331,399-457.

Over any run in which removals meet `Removable`, the visible writes are the layered
records, so each of the questions the views ask answers with the server's data
after the pending writes, oldest first. A tree layered for one path is the part
below it of the tree layered for the root.
-/
namespace PicksOnMap.Source.FWriteTree

open Support Support.LeafMap

variable {K : Type} [LinearOrder K] [StringComparator K]

/-- The trees of a run: writes are added, answered and dropped in any order. All of them are
visible; only a transaction adds others. -/
inductive Reached : FWriteTree K → Prop
  | init : Reached init
  | addOverwriteAtPath {tree : FWriteTree K} (reached : Reached tree) (path : FPath K)
      {newData : FNode K} (wf : newData.WellFormed) (writeId : Int) :
      Reached (tree.addOverwriteAtPath path newData writeId true)
  | addMergeAtPath {tree : FWriteTree K} (reached : Reached tree) (path : FPath K)
      {changedChildren : FCompoundWrite K} (canonical : changedChildren.Canonical) (writeId : Int) :
      Reached (tree.addMergeAtPath path changedChildren writeId)
  | removeWriteId {tree tree' : FWriteTree K} (reached : Reached tree) {writeId : Int}
      {wasVisible : Bool} (removed : tree.removeWriteId writeId = some (wasVisible, tree'))
      (removable : ∀ before record after, tree.allWrites = before ++ record :: after →
        record.writeId = writeId → (∀ other ∈ before, other.writeId ≠ writeId) →
          Removable before record after) : Reached tree'
  | removeAllWrites {tree : FWriteTree K} (reached : Reached tree) : Reached tree.removeAllWrites.2

theorem Reached.consistent {tree : FWriteTree K} (reached : Reached tree) : tree.Consistent := by
  induction reached with
  | init => exact init_consistent
  | addOverwriteAtPath reached path wf writeId ih => exact ih.addOverwriteAtPath path wf writeId
  | addMergeAtPath reached path canonical writeId ih =>
      exact ih.addMergeAtPath path canonical writeId
  | removeWriteId reached removed removable ih => exact ih.removeWriteId removed removable
  | removeAllWrites reached ih =>
      exact ⟨by simp [FWriteTree.removeAllWrites], by simp [FWriteTree.removeAllWrites], rfl⟩

/-- Cutting out, ignoring and starting over always leave the tree that starting over
would leave. -/
theorem Reached.visibleWrites_eq_layered {tree : FWriteTree K} (reached : Reached tree) :
    tree.visibleWrites = layerTreeFromWrites tree.allWrites defaultFilter [] :=
  reached.consistent.layered

/-- A pick is written and another one removed; the server answers the first write. -/
theorem visibleWrites_eq_layered_first_answered :
    let written := init.addOverwriteAtPath [sampleCoffee] (.leaf (.string "new")) 0 true
    let both := written.addOverwriteAtPath [sampleTea] .emptyNode 1 true
    ∃ tree, both.removeWriteId 0 = some (true, tree) ∧
      tree.visibleWrites = layerTreeFromWrites tree.allWrites defaultFilter [] := by
  intro written both
  have reached : Reached both :=
    (Reached.init.addOverwriteAtPath [sampleCoffee] (.leaf _) 0).addOverwriteAtPath [sampleTea]
      .emptyNode 1
  obtain ⟨tree, removed⟩ : ∃ tree, both.removeWriteId 0 = some (true, tree) := ⟨_, rfl⟩
  refine ⟨tree, removed, Reached.visibleWrites_eq_layered (reached.removeWriteId removed ?_)⟩
  intro before record after split identified first
  cases before with
  | nil =>
      refine removable_oldest record fun other member => ?_
      obtain ⟨rfl, rest⟩ := List.cons.inj split
      rw [← rest] at member
      exact ⟨.emptyNode, by rw [List.mem_singleton.mp member]; rfl⟩
  | cons oldest others =>
      obtain ⟨rfl, -⟩ := List.cons.inj split
      exact absurd rfl (first _ List.mem_cons_self)

/-! ## What the views ask -/

/-- The server's node after the pending writes, oldest first. -/
def replayed (records : List (FWriteRecord K)) (server : FNode K) : FNode K :=
  (pending records).foldl (fun node entry => node.updateChild entry.1 entry.2) server

/-- No pending removal lies below a leaf of the server's node. -/
def ClearOf (server : FNode K) (records : List (FWriteRecord K)) : Prop :=
  ∀ entry ∈ pending records, entry.2.isEmpty = true → ¬ server.BelowLeaf entry.1

theorem Consistent.applyToNode_eq {tree : FWriteTree K} (consistent : tree.Consistent)
    {server : FNode K} (wf : server.WellFormed) (clear : ClearOf server tree.allWrites) :
    tree.visibleWrites.applyToNode server = replayed tree.allWrites server := by
  rw [consistent.visibleWrites_eq]
  exact FCompoundWrite.canonical_emptyWrite.applyToNode_addAll wf
    (wellFormed_pending consistent.sound) clear

omit [StringComparator K] in
theorem applyToNode_of_isEmpty {write : FCompoundWrite K} (empty : write.isEmpty = true)
    (node : FNode K) : write.applyToNode node = node := by
  unfold FCompoundWrite.isEmpty at empty
  unfold FCompoundWrite.applyToNode
  rw [FImmutableTree.eq_empty_of_isEmpty empty]
  rfl

theorem calculateCompleteEventCacheAtPath_eq {tree : FWriteTree K}
    (canonical : tree.visibleWrites.Canonical) {server : FNode K} (wf : server.WellFormed)
    (path : FPath K) :
    tree.calculateCompleteEventCacheAtPath path (some (server.getChild path)) none false =
      some ((tree.visibleWrites.applyToNode server).getChild path) := by
  unfold calculateCompleteEventCacheAtPath
  simp only [Option.isNone_none, Bool.not_false, Bool.and_true, ↓reduceIte, Option.isNone_some,
    Bool.false_and, Bool.false_eq_true, Option.getD_some]
  cases complete : tree.visibleWrites.completeNodeAtPath path with
  | some node => simp only [canonical.getChild_applyToNode wf complete]
  | none =>
      rw [← canonical.applyToNode_getChild wf path]
      simp only
      split
      · next empty => rw [applyToNode_of_isEmpty empty]
      · rfl

theorem calculateCompleteEventCacheAtPath_none (tree : FWriteTree K) (path : FPath K) :
    tree.calculateCompleteEventCacheAtPath path none none false = tree.shadowingWriteAtPath path := by
  unfold calculateCompleteEventCacheAtPath shadowingWriteAtPath
  simp only [Option.isNone_none, Bool.not_false, Bool.and_true, ↓reduceIte, Bool.true_and,
    Option.getD_none]
  cases complete : tree.visibleWrites.completeNodeAtPath path with
  | some node => rfl
  | none =>
      have uncovered : (tree.visibleWrites.childCompoundWriteAtPath path).completeNodeAtPath [] =
          none := by
        refine FCompoundWrite.completeNodeAtPath_eq_none.mpr fun above onPath => ?_
        rw [FCompoundWrite.child_of_free complete, List.prefix_nil.mp onPath, List.append_nil]
        exact FCompoundWrite.completeNodeAtPath_eq_none.mp complete path (List.prefix_refl _)
      simp [FCompoundWrite.hasCompleteWriteAtPath, uncovered]

theorem calculateCompleteChildAtPath_eq {tree : FWriteTree K}
    (canonical : tree.visibleWrites.Canonical) {server : FNode K} (wf : server.WellFormed)
    (path : FPath K) {childKey : K} {cache : FCacheNode K}
    (node : cache.node = server.getChild path)
    (complete : cache.isCompleteForChild childKey = true) :
    tree.calculateCompleteChildAtPath path childKey cache =
      some ((tree.visibleWrites.applyToNode server).getChild (path ++ [childKey])) := by
  unfold calculateCompleteChildAtPath
  cases shadowing : tree.visibleWrites.completeNodeAtPath (path ++ [childKey]) with
  | some node => simp only [shadowing, canonical.getChild_applyToNode wf shadowing]
  | none =>
      have child : cache.node.getImmediateChild childKey = server.getChild (path ++ [childKey]) := by
        rw [node, FNode.getChild_append, FNode.getChild_cons, FNode.getChild_nil]
      simp only [shadowing, complete, ↓reduceIte, child, canonical.applyToNode_getChild wf]

theorem calculateEventCacheAfterServerOverwriteAtPath_eq {tree : FWriteTree K}
    (canonical : tree.visibleWrites.Canonical) {server : FNode K} (wf : server.WellFormed)
    (path childPath : FPath K) :
    tree.calculateEventCacheAfterServerOverwriteAtPath path childPath (server.getChild path) =
      if (tree.shadowingWriteAtPath (path ++ childPath)).isSome then none
      else some ((tree.visibleWrites.applyToNode server).getChild (path ++ childPath)) := by
  unfold calculateEventCacheAfterServerOverwriteAtPath shadowingWriteAtPath
    FCompoundWrite.hasCompleteWriteAtPath
  dsimp only
  split
  · rfl
  · rw [← FNode.getChild_append, ← canonical.applyToNode_getChild wf (path ++ childPath)]
    split
    · next empty => rw [applyToNode_of_isEmpty empty]
    · rfl

section Samples

/-- A written pick and a removed one, over a server that holds both. -/
def sampleWrites : FWriteTree SampleKey :=
  (init.addOverwriteAtPath [sampleCoffee] (.leaf (.string "new")) 0 true).addOverwriteAtPath
    [sampleTea] .emptyNode 1 true

def sampleServer : FNode SampleKey :=
  .children [(sampleCoffee, .leaf (.string "old")), (sampleTea, .leaf (.string "old"))]

theorem sampleWrites_reached : Reached sampleWrites :=
  (Reached.init.addOverwriteAtPath [sampleCoffee] (.leaf _) 0).addOverwriteAtPath
    [sampleTea] .emptyNode 1

theorem sampleServer_wellFormed : sampleServer.WellFormed := by
  have less : sampleCoffee < sampleTea :=
    (sampleKeys_toldApart.lt_iff_compareKey _ _).mpr (by decide)
  exact .children (by simpa [Support.SortedEntries.Sorted] using less) (by simp [FNode.isEmpty])
    (by simp [FNode.WellFormed.leaf])

theorem sampleWrites_clear : ClearOf sampleServer sampleWrites.allWrites := by
  intro entry member empty
  have listed : entry = ([sampleCoffee], .leaf (.string "new")) ∨
      entry = ([sampleTea], FNode.emptyNode) := by
    simpa [pending, sampleWrites, init, addOverwriteAtPath, FWriteRecord.initWithOverwrite,
      FWriteRecord.elementary] using member
  rcases listed with rfl | rfl
  · cases empty
  · exact FNode.not_belowLeaf_child _ sampleTea

end Samples

section Child

variable {write : FCompoundWrite K} {node : FNode K}

/-- Adding below a path, seen from the path. -/
theorem child_addWrite_below (canonical : write.Canonical) (wf : node.WellFormed)
    (path below : FPath K) :
    (write.addWrite node (path ++ below)).childCompoundWriteAtPath path =
      (write.childCompoundWriteAtPath path).addWrite node below := by
  have added := canonical.addWrite wf (path ++ below)
  have child := canonical.childCompoundWriteAtPath path
  refine (added.childCompoundWriteAtPath path).ext (child.addWrite wf below) fun query => ?_
  cases complete : write.completeNodeAtPath path with
  | some covering =>
      have top := canonical.child_of_complete complete
      have held := top []
      rw [if_pos rfl] at held
      have merged := child.nodeAt_addWrite_merged held below query node
      rw [List.nil_append, top] at merged
      obtain ⟨found, rest, value, rfl, there, rfl⟩ :=
        canonical.completeNodeAtPath_eq_some.mp complete
      have updated := canonical.nodeAt_addWrite_merged there (rest ++ below) found node
      rw [if_pos rfl, ← List.append_assoc] at updated
      have covered := added.completeNodeAtPath updated rest
      rw [FNode.getChild_updateChild_append] at covered
      rw [merged, added.child_of_complete covered]
      split <;> rfl
  | none =>
      have inside := FCompoundWrite.child_of_free complete
      have bare := FCompoundWrite.completeNodeAtPath_eq_none.mp complete
      rcases write.merged_or_free (path ++ below) with ⟨found, rest, value, split, held⟩ | free
      · obtain ⟨deeper, rfl⟩ : path <+: found := by
          rcases List.prefix_or_prefix_of_prefix (List.prefix_append path below)
            (split ▸ List.prefix_append found rest) with under | above
          · exact under
          · rw [bare found above] at held
            cases held
        rw [List.append_assoc] at split
        obtain rfl := List.append_cancel_left split
        have lookup := fun query => canonical.nodeAt_addWrite_merged held rest query node
        have stillFree : (write.addWrite node (path ++ deeper ++ rest)).completeNodeAtPath path =
            none := by
          refine FCompoundWrite.completeNodeAtPath_eq_none.mpr fun above onPath => ?_
          rw [lookup, if_neg, bare above onPath]
          rintro rfl
          rw [bare _ onPath] at held
          cases held
        rw [← List.append_assoc, FCompoundWrite.child_of_free stillFree, lookup]
        rw [← inside] at held
        rw [child.nodeAt_addWrite_merged held, inside]
        simp only [List.append_cancel_left_eq]
      · have lookup := FCompoundWrite.nodeAt_addWrite_free free node
        have childFree : ∀ above, above <+: below →
            (write.childCompoundWriteAtPath path).nodeAt above = none := fun above onPath => by
          rw [inside]
          exact free _ ((List.prefix_append_right_inj path).mpr onPath)
        have childLookup := FCompoundWrite.nodeAt_addWrite_free childFree node query
        rw [childLookup, inside]
        by_cases atPath : below = []
        · subst atPath
          have here := lookup (path ++ [])
          rw [if_pos (List.prefix_refl _), if_pos rfl] at here
          have covered := added.completeNodeAtPath here []
          rw [List.append_nil, FNode.getChild_nil] at covered
          rw [List.append_nil] at added covered ⊢
          rw [added.child_of_complete covered]
          simp
        · have stillFree : (write.addWrite node (path ++ below)).completeNodeAtPath path = none := by
            refine FCompoundWrite.completeNodeAtPath_eq_none.mpr fun above onPath => ?_
            rw [lookup, if_neg, bare above onPath]
            intro under
            have short := (under.trans onPath).length_le
            have long : below.length ≠ 0 := fun none => atPath (List.eq_nil_of_length_eq_zero none)
            rw [List.length_append] at short
            omega
          rw [FCompoundWrite.child_of_free stillFree, lookup]
          simp only [List.prefix_append_right_inj, List.append_cancel_left_eq]

/-- Adding above a path, seen from the path. -/
theorem child_addWrite_above (canonical : write.Canonical) (wf : node.WellFormed)
    (path rest : FPath K) :
    (write.addWrite node path).childCompoundWriteAtPath (path ++ rest) =
      (write.childCompoundWriteAtPath (path ++ rest)).addWrite (node.getChild rest) [] := by
  have added := canonical.addWrite wf path
  have restWf := wf.getChild rest
  refine (added.childCompoundWriteAtPath _).ext
    ((canonical.childCompoundWriteAtPath _).addWrite restWf []) fun query => ?_
  have single : ((write.childCompoundWriteAtPath (path ++ rest)).addWrite
      (node.getChild rest) []).nodeAt query = if query = [] then some (node.getChild rest) else none :=
    FCompoundWrite.nodeAt_initWithValue _ _
  have covered : (write.addWrite node path).completeNodeAtPath (path ++ rest) =
      some (node.getChild rest) := by
    rcases write.merged_or_free path with ⟨found, inner, value, rfl, held⟩ | free
    · have updated := canonical.nodeAt_addWrite_merged held inner found node
      rw [if_pos rfl] at updated
      rw [List.append_assoc, added.completeNodeAtPath updated, FNode.getChild_updateChild_below]
    · have placed := FCompoundWrite.nodeAt_addWrite_free free node path
      rw [if_pos (List.prefix_refl _), if_pos rfl] at placed
      exact added.completeNodeAtPath placed rest
  rw [single, added.child_of_complete covered]

/-- Adding elsewhere does not show from a path. -/
theorem child_addWrite_apart (canonical : write.Canonical) (wf : node.WellFormed)
    {path other : FPath K} (apart : ¬ Comparable other path) :
    (write.addWrite node other).childCompoundWriteAtPath path =
      write.childCompoundWriteAtPath path := by
  have added := canonical.addWrite wf other
  refine (added.childCompoundWriteAtPath path).ext (canonical.childCompoundWriteAtPath path)
    fun query => ?_
  have notOn : ∀ {found}, found <+: other → ∀ below, found <+: path ++ below →
      found <+: path := by
    intro found onOther below onPath
    rcases List.prefix_or_prefix_of_prefix onPath (List.prefix_append path below) with
      above | under
    · exact above
    · exact absurd (.inr (under.trans onOther)) apart
  cases complete : write.completeNodeAtPath path with
  | some covering =>
      obtain ⟨found, rest, value, rfl, held, rfl⟩ := canonical.completeNodeAtPath_eq_some.mp complete
      have covered : (write.addWrite node other).completeNodeAtPath (found ++ rest) =
          some (value.getChild rest) := by
        rcases write.merged_or_free other with ⟨top, inner, topValue, rfl, topHeld⟩ | free
        · have lookup := canonical.nodeAt_addWrite_merged topHeld inner found node
          by_cases same : found = top
          · subst same
            rw [held] at topHeld
            obtain rfl := Option.some.inj topHeld
            rw [if_pos rfl] at lookup
            rw [added.completeNodeAtPath lookup, FNode.getChild_updateChild_apart]
            intro near
            exact apart (near.imp ((List.prefix_append_right_inj found).mpr)
              ((List.prefix_append_right_inj found).mpr))
          · rw [if_neg same, held] at lookup
            exact added.completeNodeAtPath lookup rest
        · have lookup := FCompoundWrite.nodeAt_addWrite_free free node found
          rw [if_neg fun under => apart (.inl (under.trans (List.prefix_append found rest))),
            held] at lookup
          exact added.completeNodeAtPath lookup rest
      rw [added.child_of_complete covered, canonical.child_of_complete complete]
  | none =>
      have bare := FCompoundWrite.completeNodeAtPath_eq_none.mp complete
      have lookup : ∀ query, Comparable query path →
          (write.addWrite node other).nodeAt query = write.nodeAt query := by
        intro query near
        rcases write.merged_or_free other with ⟨found, inner, value, rfl, held⟩ | free
        · rw [canonical.nodeAt_addWrite_merged held, if_neg]
          rintro rfl
          rcases near with above | ⟨rest, rfl⟩
          · rw [bare query above] at held
            cases held
          · exact apart (.inr ((List.prefix_append path rest).trans (List.prefix_append _ inner)))
        · rw [FCompoundWrite.nodeAt_addWrite_free free, if_neg]
          intro under
          rcases near with above | below
          · exact apart (.inl (under.trans above))
          · exact apart (List.prefix_or_prefix_of_prefix under below)
      have stillFree : (write.addWrite node other).completeNodeAtPath path = none := by
        refine FCompoundWrite.completeNodeAtPath_eq_none.mpr fun above onPath => ?_
        rw [lookup above (.inl onPath), bare above onPath]
      rw [FCompoundWrite.child_of_free stillFree, FCompoundWrite.child_of_free complete,
        lookup _ (.inr (List.prefix_append path query))]

end Child

theorem child_addAll_below {write : FCompoundWrite K} (canonical : write.Canonical) (path : FPath K)
    {writes : List (FPath K × FNode K)} (wf : ∀ entry ∈ writes, entry.2.WellFormed) :
    (write.addAll (writes.map fun entry => (path ++ entry.1, entry.2))).childCompoundWriteAtPath
        path =
      (write.childCompoundWriteAtPath path).addAll writes := by
  induction writes generalizing write with
  | nil => rfl
  | cons entry rest ih =>
      have entryWf := wf entry List.mem_cons_self
      have step := ih (canonical.addWrite entryWf (path ++ entry.1))
        fun later member => wf later (List.mem_cons_of_mem _ member)
      rw [child_addWrite_below canonical entryWf] at step
      exact step

theorem child_addAll_apart {write : FCompoundWrite K} (canonical : write.Canonical) {path : FPath K}
    {writes : List (FPath K × FNode K)} (wf : ∀ entry ∈ writes, entry.2.WellFormed)
    (apart : ∀ entry ∈ writes, ¬ Comparable entry.1 path) :
    (write.addAll writes).childCompoundWriteAtPath path = write.childCompoundWriteAtPath path := by
  induction writes generalizing write with
  | nil => rfl
  | cons entry rest ih =>
      have entryWf := wf entry List.mem_cons_self
      have step := ih (canonical.addWrite entryWf entry.1)
        (fun later member => wf later (List.mem_cons_of_mem _ member))
        fun later member => apart later (List.mem_cons_of_mem _ member)
      rw [child_addWrite_apart canonical entryWf (apart entry List.mem_cons_self)] at step
      exact step

/-- No merge that the filter keeps starts strictly above the path. -/
def MergesBelow (records : List (FWriteRecord K)) (filter : FWriteRecord K → Bool)
    (path : FPath K) :
    Prop :=
  ∀ record ∈ records, filter record = true → ∀ merge, record.data = .merge merge →
    record.path <+: path → record.path = path

theorem layerRecord_eq_child {write : FCompoundWrite K} (canonical : write.Canonical)
    {record : FWriteRecord K} (sound : record.Sound) {treeRoot : FPath K}
    (merges : ∀ merge, record.data = .merge merge → record.path <+: treeRoot →
      record.path = treeRoot) :
    layerRecord treeRoot (write.childCompoundWriteAtPath treeRoot) record =
      (write.addAll record.elementary).childCompoundWriteAtPath treeRoot := by
  have wf := sound.elementary
  unfold FWriteRecord.elementary at wf ⊢
  unfold layerRecord
  cases data : record.data with
  | overwrite node =>
      simp only [data, List.mem_singleton, forall_eq] at wf ⊢
      have single : write.addAll [(record.path, node)] = write.addWrite node record.path := rfl
      rw [single]
      split
      · next below =>
          obtain ⟨rest, same⟩ := below
          rw [← same, FPath.within, List.drop_left]
          exact (child_addWrite_below canonical wf treeRoot rest).symm
      · next notBelow =>
          split
          · next above =>
              obtain ⟨rest, same⟩ := above
              rw [← same, FPath.within, List.drop_left]
              exact (child_addWrite_above canonical wf record.path rest).symm
          · next notAbove =>
              exact (child_addWrite_apart canonical wf fun near => near.elim notAbove notBelow).symm
  | merge merge =>
      simp only [data] at wf ⊢
      split
      · next below =>
          obtain ⟨rest, same⟩ := below
          have split : merge.writeTree.entries.map (fun entry => (record.path ++ entry.1, entry.2)) =
              (merge.writeTree.entries.map fun entry => (rest ++ entry.1, entry.2)).map
                fun entry => (treeRoot ++ entry.1, entry.2) := by
            simp [← same]
          have restWf : ∀ entry ∈ merge.writeTree.entries.map
              (fun entry => (rest ++ entry.1, entry.2)), entry.2.WellFormed := by
            intro entry member
            obtain ⟨inner, found, rfl⟩ := List.mem_map.mp member
            exact wf (record.path ++ inner.1, inner.2) (List.mem_map.mpr ⟨inner, found, rfl⟩)
          rw [split, child_addAll_below canonical treeRoot restWf, FCompoundWrite.addCompoundWrite_eq,
            ← same, FPath.within, List.drop_left]
      · next notBelow =>
          split
          · next above =>
              exact absurd (merges merge data above ▸ List.prefix_refl _) notBelow
          · next notAbove =>
              refine (child_addAll_apart canonical wf fun entry member near => ?_).symm
              obtain ⟨inner, -, rfl⟩ := List.mem_map.mp member
              rcases near with under | beyond
              · exact notAbove ((List.prefix_append _ _).trans under)
              · exact (List.prefix_or_prefix_of_prefix beyond (List.prefix_append _ _)).elim
                  notBelow notAbove

/-- Layering for a path is taking the part below it of the layers for the root. -/
theorem layerTreeFromWrites_eq_child {records : List (FWriteRecord K)}
    (sound : ∀ record ∈ records, record.Sound) {filter : FWriteRecord K → Bool} {treeRoot : FPath K}
    (merges : MergesBelow records filter treeRoot) :
    layerTreeFromWrites records filter treeRoot =
      (FCompoundWrite.emptyWrite.addAll (pending (records.filter filter))).childCompoundWriteAtPath
        treeRoot := by
  unfold layerTreeFromWrites
  induction records using List.reverseRecOn with
  | nil =>
      refine FCompoundWrite.canonical_emptyWrite.ext
        (FCompoundWrite.canonical_emptyWrite.childCompoundWriteAtPath treeRoot) fun query => ?_
      have free : FCompoundWrite.emptyWrite.completeNodeAtPath treeRoot = none :=
        FCompoundWrite.completeNodeAtPath_eq_none.mpr fun above _ =>
          FCompoundWrite.nodeAt_emptyWrite above
      exact (FCompoundWrite.nodeAt_emptyWrite query).trans
        ((FCompoundWrite.child_of_free free query).trans
          (FCompoundWrite.nodeAt_emptyWrite _)).symm
  | append_singleton earlier last ih =>
      have earlierSound : ∀ record ∈ earlier, record.Sound := fun record member =>
        sound record (List.mem_append_left _ member)
      have canonical :
          (FCompoundWrite.emptyWrite.addAll (pending (earlier.filter filter))).Canonical :=
        FCompoundWrite.canonical_emptyWrite.addAll (wellFormed_pending fun record member =>
          earlierSound record (List.mem_of_mem_filter member))
      rw [List.foldl_append, List.foldl_cons, List.foldl_nil,
        ih earlierSound fun record member => merges record (List.mem_append_left _ member),
        List.filter_append, pending_append, FCompoundWrite.addAll_append]
      by_cases keeps : filter last = true
      · have single : pending ([last].filter filter) = last.elementary := by
          simp [pending, keeps]
        rw [single, if_pos keeps]
        exact layerRecord_eq_child canonical (sound last (by simp)) (merges last (by simp) keeps)
      · have none : pending ([last].filter filter) = [] := by simp [pending, keeps]
        rw [none, if_neg keeps]
        rfl

/-! ## Leaving writes out -/

/-- There is a write at or above the path. -/
def Covers (write : FCompoundWrite K) (path : FPath K) : Prop :=
  ∃ found value, found <+: path ∧ write.nodeAt found = some value

theorem covers_addWrite {write : FCompoundWrite K} (canonical : write.Canonical) (node : FNode K)
    (path : FPath K) :
    Covers (write.addWrite node path) path ∧
      ∀ query, Covers write query → Covers (write.addWrite node path) query := by
  rcases write.merged_or_free path with ⟨found, rest, value, rfl, held⟩ | free
  · have lookup := fun query => canonical.nodeAt_addWrite_merged held rest query node
    have top := lookup found
    rw [if_pos rfl] at top
    refine ⟨⟨found, _, List.prefix_append found rest, top⟩, ?_⟩
    rintro query ⟨other, otherValue, onQuery, there⟩
    by_cases same : other = found
    · exact ⟨found, _, same ▸ onQuery, top⟩
    · exact ⟨other, otherValue, onQuery, by rw [lookup, if_neg same, there]⟩
  · have lookup := FCompoundWrite.nodeAt_addWrite_free free node
    have top := lookup path
    rw [if_pos (List.prefix_refl _), if_pos rfl] at top
    refine ⟨⟨path, node, List.prefix_refl _, top⟩, ?_⟩
    rintro query ⟨other, otherValue, onQuery, there⟩
    by_cases under : path <+: other
    · exact ⟨path, node, under.trans onQuery, top⟩
    · exact ⟨other, otherValue, onQuery, by rw [lookup, if_neg under, there]⟩

/-- A path that was written stays covered. -/
theorem covers_addAll {writes : List (FPath K × FNode K)}
    (wf : ∀ entry ∈ writes, entry.2.WellFormed) :
    ∀ entry ∈ writes, Covers (FCompoundWrite.emptyWrite.addAll writes) entry.1 := by
  induction writes using List.reverseRecOn with
  | nil => simp
  | append_singleton earlier last ih =>
      have earlierWf : ∀ entry ∈ earlier, entry.2.WellFormed := fun entry member =>
        wf entry (List.mem_append_left _ member)
      have canonical := FCompoundWrite.canonical_emptyWrite.addAll earlierWf
      obtain ⟨self, others⟩ := covers_addWrite canonical last.2 last.1
      rw [FCompoundWrite.addAll_append]
      intro entry member
      rcases List.mem_append.mp member with old | new
      · exact others entry.1 (ih earlierWf entry old)
      · obtain rfl := List.mem_singleton.mp new
        exact self

/-- If nothing is left below a path, no write ran through it. -/
theorem apart_of_child_isEmpty {writes : List (FPath K × FNode K)}
    (wf : ∀ entry ∈ writes, entry.2.WellFormed) {path : FPath K}
    (empty : ((FCompoundWrite.emptyWrite.addAll writes).childCompoundWriteAtPath path).isEmpty =
      true) : ∀ entry ∈ writes, ¬ Comparable entry.1 path := by
  have canonical := FCompoundWrite.canonical_emptyWrite.addAll wf
  have bare : ∀ query, ((FCompoundWrite.emptyWrite.addAll writes).childCompoundWriteAtPath
      path).nodeAt query = none :=
    (canonical.childCompoundWriteAtPath path).tree.isEmpty_iff.mp empty
  have free : (FCompoundWrite.emptyWrite.addAll writes).completeNodeAtPath path = none := by
    cases complete : (FCompoundWrite.emptyWrite.addAll writes).completeNodeAtPath path with
    | none => rfl
    | some node =>
        have top := canonical.child_of_complete complete []
        rw [bare, if_pos rfl] at top
        cases top
  intro entry member near
  obtain ⟨found, value, onEntry, held⟩ := covers_addAll wf entry member
  have notAbove : ¬ found <+: path := by
    intro above
    rw [FCompoundWrite.completeNodeAtPath_eq_none.mp free found above] at held
    cases held
  rcases near with above | below
  · exact notAbove (onEntry.trans above)
  · rcases List.prefix_or_prefix_of_prefix onEntry below with above | ⟨deeper, rfl⟩
    · exact notAbove above
    · rw [← FCompoundWrite.child_of_free free, bare] at held
      cases held

omit [StringComparator K] in
theorem replayed_getChild_of_apart {records : List (FWriteRecord K)} {path : FPath K}
    (apart : ∀ entry ∈ pending records, ¬ Comparable entry.1 path) (server : FNode K) :
    (replayed records server).getChild path = server.getChild path := by
  unfold replayed
  generalize pending records = writes at apart
  induction writes generalizing server with
  | nil => rfl
  | cons entry rest ih =>
      have tail := ih (server.updateChild entry.1 entry.2)
      rw [List.foldl_cons, tail (fun later member => apart later (List.mem_cons_of_mem _ member))]
      exact FNode.getChild_updateChild_apart server entry.2 (apart entry List.mem_cons_self)

/-- Records elsewhere do not enter the layers of a path. -/
theorem layerTreeFromWrites_relevant {records : List (FWriteRecord K)}
    {filter keep : FWriteRecord K → Bool} {treeRoot : FPath K}
    (relevant : ∀ record ∈ records, filter record = true ↔
      keep record = true ∧ Comparable record.path treeRoot) :
    layerTreeFromWrites records filter treeRoot = layerTreeFromWrites records keep treeRoot := by
  unfold layerTreeFromWrites
  generalize FCompoundWrite.emptyWrite = write
  induction records generalizing write with
  | nil => rfl
  | cons record rest ih =>
      have first := relevant record List.mem_cons_self
      have step : (if filter record then layerRecord treeRoot write record else write) =
          if keep record then layerRecord treeRoot write record else write := by
        by_cases keeps : keep record = true
        · by_cases near : Comparable record.path treeRoot
          · rw [if_pos (first.mpr ⟨keeps, near⟩), if_pos keeps]
          · rw [if_neg fun kept => near (first.mp kept).2, if_pos keeps]
            have notBelow : ¬ treeRoot <+: record.path := fun below => near (.inr below)
            have notAbove : ¬ record.path <+: treeRoot := fun above => near (.inl above)
            unfold layerRecord
            cases record.data <;> simp only [notBelow, notAbove, ↓reduceIte]
        · rw [if_neg fun kept => keeps (first.mp kept).1, if_neg keeps]
      rw [List.foldl_cons, List.foldl_cons, step]
      exact ih (fun later member => relevant later (List.mem_cons_of_mem _ member)) _

end PicksOnMap.Source.FWriteTree
