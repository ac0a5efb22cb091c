import PicksOnMap.Guarantees.CompoundWrites
import PicksOnMap.Source.WriteTree

/-!
# The visible writes are the pending writes

A pending write that goes away is ignored, cut out of the visible writes, or makes
the tree start over. Each of the three must leave what layering the remaining
records would leave. Two compound writes that agree outside one path
(`AgreeOutside`) carry the argument: later writes keep them so, until one of them
covers the path and makes them equal.
-/
namespace PicksOnMap.Source

open Support Support.LeafMap

variable {K : Type} [LinearOrder K] [StringComparator K]

namespace FCompoundWrite

/-- The two differ only at and below `path`, and nothing covers it from above. -/
structure AgreeOutside (path : FPath K) (left right : FCompoundWrite K) : Prop where
  leftCanonical : left.Canonical
  rightCanonical : right.Canonical
  outside : ∀ query, ¬ path <+: query → left.nodeAt query = right.nodeAt query
  uncovered : ∀ above, above <+: path → above ≠ path → left.nodeAt above = none

namespace AgreeOutside

theorem symm {path : FPath K} {left right : FCompoundWrite K}
    (agree : AgreeOutside path left right) :
    AgreeOutside path right left where
  leftCanonical := agree.rightCanonical
  rightCanonical := agree.leftCanonical
  outside := fun query apart => (agree.outside query apart).symm
  uncovered := fun above onPath apart => by
    have notBelow : ¬ path <+: above := fun below =>
      apart (onPath.eq_of_length_le below.length_le)
    rw [← agree.outside above notBelow]
    exact agree.uncovered above onPath apart

end AgreeOutside

/-- A write with nothing strictly above it replaces what lies at and below its path. -/
theorem Canonical.nodeAt_addWrite_top {write : FCompoundWrite K} (canonical : write.Canonical)
    {path : FPath K} (top : ∀ above, above <+: path → above ≠ path → write.nodeAt above = none)
    (node : FNode K) (query : FPath K) :
    (write.addWrite node path).nodeAt query =
      if path <+: query then (if query = path then some node else none)
      else write.nodeAt query := by
  cases held : write.nodeAt path with
  | none =>
      refine nodeAt_addWrite_free (fun above onPath => ?_) node query
      by_cases same : above = path
      · rw [same, held]
      · exact top above onPath same
  | some value =>
      have merged := canonical.nodeAt_addWrite_merged held [] query node
      have whole : value.updateChild [] node = node := by cases value <;> rfl
      rw [List.append_nil, whole] at merged
      rw [merged]
      by_cases same : query = path
      · rw [if_pos same, if_pos (same ▸ List.prefix_refl _), if_pos same]
      · rw [if_neg same]
        split
        · next below =>
            cases other : write.nodeAt query with
            | none => rfl
            | some node =>
                exact absurd (canonical.terminal _ _ _ _ held other below) (Ne.symm same)
        · rfl

/-- A write at or below a path that nothing covers from above leaves the rest alone. -/
theorem Canonical.nodeAt_addWrite_outside {write : FCompoundWrite K} (canonical : write.Canonical)
    {path target query : FPath K} (below : path <+: target)
    (uncovered : ∀ above, above <+: path → above ≠ path → write.nodeAt above = none)
    (node : FNode K) (outside : ¬ path <+: query) :
    (write.addWrite node target).nodeAt query = write.nodeAt query := by
  rcases write.merged_or_free target with ⟨found, rest, value, rfl, held⟩ | free
  · rw [canonical.nodeAt_addWrite_merged held, if_neg]
    rintro rfl
    rcases List.prefix_or_prefix_of_prefix below (List.prefix_append query rest) with under | above
    · exact outside under
    · have apart : query ≠ path := fun same => outside (same ▸ List.prefix_refl _)
      rw [uncovered query above apart] at held
      cases held
  · rw [nodeAt_addWrite_free free, if_neg]
    exact fun under => outside (below.trans under)

namespace AgreeOutside

/-- A write that covers the path makes the two equal. -/
theorem addWrite_covering {path target : FPath K} {left right : FCompoundWrite K}
    (agree : AgreeOutside path left right) (covers : target <+: path) {node : FNode K}
    (wf : node.WellFormed) : left.addWrite node target = right.addWrite node target := by
  have top : ∀ {write : FCompoundWrite K},
      (∀ above, above <+: path → above ≠ path → write.nodeAt above = none) →
      ∀ above, above <+: target → above ≠ target → write.nodeAt above = none := by
    intro write uncovered above onTarget apart
    refine uncovered above (onTarget.trans covers) fun same => apart ?_
    exact onTarget.eq_of_length_le (same ▸ covers.length_le)
  refine (agree.leftCanonical.addWrite wf target).ext (agree.rightCanonical.addWrite wf target)
    fun query => ?_
  rw [agree.leftCanonical.nodeAt_addWrite_top (top agree.uncovered),
    agree.rightCanonical.nodeAt_addWrite_top (top agree.symm.uncovered)]
  split
  · rfl
  · next apart => exact agree.outside query fun below => apart (covers.trans below)

/-- Any other write keeps them in agreement. -/
theorem addWrite {path target : FPath K} {left right : FCompoundWrite K}
    (agree : AgreeOutside path left right) (misses : ¬ target <+: path) {node : FNode K}
    (wf : node.WellFormed) :
    AgreeOutside path (left.addWrite node target) (right.addWrite node target) where
  leftCanonical := agree.leftCanonical.addWrite wf target
  rightCanonical := agree.rightCanonical.addWrite wf target
  outside := by
    intro query apart
    by_cases below : path <+: target
    · rw [agree.leftCanonical.nodeAt_addWrite_outside below agree.uncovered node apart,
        agree.rightCanonical.nodeAt_addWrite_outside below agree.symm.uncovered node apart]
      exact agree.outside query apart
    · rcases left.merged_or_free target with ⟨found, rest, value, rfl, held⟩ | free
      · have foundApart : ¬ path <+: found := fun under =>
          below (under.trans (List.prefix_append found rest))
        have rightHeld := held
        rw [agree.outside found foundApart] at rightHeld
        rw [agree.leftCanonical.nodeAt_addWrite_merged held,
          agree.rightCanonical.nodeAt_addWrite_merged rightHeld, agree.outside query apart]
      · have rightFree : ∀ above, above <+: target → right.nodeAt above = none := by
          intro above onTarget
          rw [← agree.outside above fun under => below (under.trans onTarget)]
          exact free above onTarget
        rw [nodeAt_addWrite_free free, nodeAt_addWrite_free rightFree, agree.outside query apart]
  uncovered := by
    intro above onPath apart
    cases there : (left.addWrite node target).nodeAt above with
    | none => rfl
    | some held =>
        rcases agree.leftCanonical.exists_of_addWrite there with same | ⟨old, oldThere⟩
        · exact absurd (same ▸ onPath) misses
        · rw [agree.uncovered above onPath apart] at oldThere
          cases oldThere

theorem addAll {path : FPath K} {left right : FCompoundWrite K}
    (agree : AgreeOutside path left right)
    {writes : List (FPath K × FNode K)} (wf : ∀ entry ∈ writes, entry.2.WellFormed)
    (misses : ∀ entry ∈ writes, ¬ entry.1 <+: path) :
    AgreeOutside path (left.addAll writes) (right.addAll writes) := by
  induction writes generalizing left right with
  | nil => exact agree
  | cons entry rest ih =>
      have step := agree.addWrite (misses entry List.mem_cons_self) (wf entry List.mem_cons_self)
      exact ih step (fun later member => wf later (List.mem_cons_of_mem _ member))
        fun later member => misses later (List.mem_cons_of_mem _ member)

theorem addAll_covering {path : FPath K} {left right : FCompoundWrite K}
    (agree : AgreeOutside path left right) {writes : List (FPath K × FNode K)}
    (wf : ∀ entry ∈ writes, entry.2.WellFormed) (covered : ∃ entry ∈ writes, entry.1 <+: path) :
    left.addAll writes = right.addAll writes := by
  induction writes generalizing left right with
  | nil => simp at covered
  | cons entry rest ih =>
      have entryWf := wf entry List.mem_cons_self
      by_cases covers : entry.1 <+: path
      · unfold FCompoundWrite.addAll
        rw [List.foldl_cons, List.foldl_cons, agree.addWrite_covering covers entryWf]
      · refine ih (agree.addWrite covers entryWf)
          (fun later member => wf later (List.mem_cons_of_mem _ member)) ?_
        obtain ⟨covering, member, onPath⟩ := covered
        rcases List.mem_cons.mp member with rfl | later
        · exact absurd onPath covers
        · exact ⟨covering, later, onPath⟩

end AgreeOutside

/-- Writes at and below a path that nothing covers from above change only what is there. -/
theorem Canonical.agreeOutside_addAll {write : FCompoundWrite K} (canonical : write.Canonical)
    {path : FPath K}
    (uncovered : ∀ above, above <+: path → above ≠ path → write.nodeAt above = none)
    {writes : List (FPath K × FNode K)} (wf : ∀ entry ∈ writes, entry.2.WellFormed)
    (below : ∀ entry ∈ writes, path <+: entry.1) :
    AgreeOutside path write (write.addAll writes) := by
  induction writes using List.reverseRecOn with
  | nil => exact ⟨canonical, canonical, fun _ _ => rfl, uncovered⟩
  | append_singleton earlier last ih =>
      have agree := ih (fun entry member => wf entry (List.mem_append_left _ member))
        fun entry member => below entry (List.mem_append_left _ member)
      have member : last ∈ earlier ++ [last] := by simp
      rw [addAll_append]
      refine ⟨canonical, agree.rightCanonical.addWrite (wf last member) last.1, ?_, uncovered⟩
      intro query apart
      rw [agree.outside query apart]
      exact (agree.rightCanonical.nodeAt_addWrite_outside (below last member)
        agree.symm.uncovered last.2 apart).symm

end FCompoundWrite

namespace FWriteRecord

/-- The overwrites a record comes to, each at its full path. -/
def elementary (record : FWriteRecord K) : List (FPath K × FNode K) :=
  match record.data with
  | .overwrite node => [(record.path, node)]
  | .merge merge => merge.writeTree.entries.map fun entry => (record.path ++ entry.1, entry.2)

/-- What the record carries is well formed. -/
def Sound (record : FWriteRecord K) : Prop :=
  match record.data with
  | .overwrite node => node.WellFormed
  | .merge merge => merge.Canonical

omit [LinearOrder K] [StringComparator K] in
theorem elementary_below {record : FWriteRecord K} {entry : FPath K × FNode K}
    (member : entry ∈ record.elementary) : record.path <+: entry.1 := by
  unfold elementary at member
  split at member
  · obtain rfl := List.mem_singleton.mp member
    exact List.prefix_refl _
  · obtain ⟨inner, -, rfl⟩ := List.mem_map.mp member
    exact List.prefix_append _ _

theorem Sound.elementary {record : FWriteRecord K} (sound : record.Sound) :
    ∀ entry ∈ record.elementary, entry.2.WellFormed := by
  intro entry member
  unfold Sound at sound
  unfold FWriteRecord.elementary at member
  split at member
  · next node data =>
      rw [data] at sound
      obtain rfl := List.mem_singleton.mp member
      exact sound
  · next merge data =>
      rw [data] at sound
      obtain ⟨inner, found, rfl⟩ := List.mem_map.mp member
      exact sound.nodes inner.1 inner.2 ((sound.tree.mem_entries _ _).mp found)

end FWriteRecord

omit [LinearOrder K] [StringComparator K] in
theorem FCompoundWrite.enumerateWrites_eq {σ : Type*} (write : FCompoundWrite K)
    (block : FPath K → FNode K → σ → Bool × σ) (seen : σ) :
    write.enumerateWrites block seen =
      (write.writeTree.entries.foldl
        (fun visit entry => if visit.1 then visit else block entry.1 entry.2 visit.2)
        (false, seen)).2 := by
  unfold enumerateWrites
  rw [FImmutableTree.forEach_eq]

namespace FWriteTree

/-- All writes of the records, oldest first. -/
def pending (records : List (FWriteRecord K)) : List (FPath K × FNode K) :=
  records.flatMap FWriteRecord.elementary

omit [LinearOrder K] [StringComparator K] in
theorem pending_append (first second : List (FWriteRecord K)) :
    pending (first ++ second) = pending first ++ pending second := List.flatMap_append

omit [LinearOrder K] [StringComparator K] in
theorem mem_pending {records : List (FWriteRecord K)} {entry : FPath K × FNode K} :
    entry ∈ pending records ↔ ∃ record ∈ records, entry ∈ record.elementary := List.mem_flatMap

theorem wellFormed_pending {records : List (FWriteRecord K)}
    (sound : ∀ record ∈ records, record.Sound) :
    ∀ entry ∈ pending records, entry.2.WellFormed := by
  intro entry member
  obtain ⟨record, held, inside⟩ := mem_pending.mp member
  exact (sound record held).elementary entry inside

omit [StringComparator K] in
theorem recordContainsPath_iff (record : FWriteRecord K) (path : FPath K) :
    recordContainsPath record path = true ↔ ∃ entry ∈ record.elementary, entry.1 <+: path := by
  unfold recordContainsPath FWriteRecord.elementary
  cases record.data with
  | overwrite node => simp
  | merge merge =>
      simp only [FCompoundWrite.enumerateWrites_eq, List.mem_map, exists_exists_and_eq_and]
      have scanned : ∀ (entries : List (FPath K × FNode K)) (found : Bool),
          (entries.foldl (fun visit entry =>
            if visit.1 then visit
            else (decide (record.path ++ entry.1 <+: path), decide (record.path ++ entry.1 <+: path)))
            (found, found)).2 = true ↔
          found = true ∨ ∃ entry ∈ entries, record.path ++ entry.1 <+: path := by
        intro entries
        induction entries with
        | nil => simp
        | cons entry rest ih =>
            intro found
            cases found with
            | true => simpa using (ih true).mpr (.inl rfl)
            | false =>
                rw [List.foldl_cons]
                simp only [Bool.false_eq_true, ↓reduceIte]
                rw [ih]
                simp
      rw [scanned]
      simp

theorem layerTreeFromWrites_root (records : List (FWriteRecord K)) :
    layerTreeFromWrites records defaultFilter [] = FCompoundWrite.emptyWrite.addAll (pending records) := by
  unfold layerTreeFromWrites
  induction records using List.reverseRecOn with
  | nil => rfl
  | append_singleton earlier last ih =>
      rw [List.foldl_append, List.foldl_cons, List.foldl_nil, ih, pending_append,
        FCompoundWrite.addAll_append]
      have single : pending [last] = last.elementary := by simp [pending]
      rw [single]
      unfold FWriteRecord.elementary
      cases data : last.data with
      | overwrite node => simp [defaultFilter, layerRecord, data, FPath.within, FCompoundWrite.addAll]
      | merge merge =>
          simp [defaultFilter, layerRecord, data, FPath.within, FCompoundWrite.addCompoundWrite_eq]

/-! ## The scan over the other records -/

omit [StringComparator K] in
theorem scan_spec (writeToRemove : FWriteRecord K) (index : Nat)
    {others : List (FWriteRecord K × Nat)} (visible : ∀ other ∈ others, other.1.visible = true)
    (start : RemovalScan) :
    ((others.foldr (scanStep writeToRemove index) start).removedWriteWasVisible = true ↔
      start.removedWriteWasVisible = true ∧ ∀ other ∈ others,
        ¬ (index ≤ other.2 ∧ recordContainsPath other.1 writeToRemove.path = true)) ∧
    ((others.foldr (scanStep writeToRemove index) start).removedWriteWasVisible = true →
      (others.foldr (scanStep writeToRemove index) start).removedWriteOverlapsWithOtherWrites =
        false → ∀ other ∈ others, ¬ writeToRemove.path <+: other.1.path) := by
  induction others with
  | nil => simp
  | cons other rest ih =>
      obtain ⟨shown, apart⟩ := ih fun later member => visible later (List.mem_cons_of_mem _ member)
      have otherVisible := visible other List.mem_cons_self
      rw [List.foldr_cons]
      generalize rest.foldr (scanStep writeToRemove index) start = scan at shown apart
      unfold scanStep
      by_cases scanVisible : scan.removedWriteWasVisible = true
      · have before := shown.mp scanVisible
        by_cases covers : index ≤ other.2 ∧ recordContainsPath other.1 writeToRemove.path = true
        · simp [scanVisible, otherVisible, covers]
        · by_cases under : writeToRemove.path <+: other.1.path
          · simp only [scanVisible, otherVisible, covers, under, Bool.not_true, Bool.false_eq_true,
              ↓reduceIte, List.forall_mem_cons, not_false_eq_true, true_and, before, reduceCtorEq,
              false_implies, imp_self, and_true]
            exact iff_of_true trivial before.2
          · simp only [scanVisible, otherVisible, covers, under, Bool.not_true, Bool.false_eq_true,
              ↓reduceIte, List.forall_mem_cons, not_false_eq_true, true_and, before]
            exact ⟨iff_of_true trivial before.2, fun _ => apart scanVisible⟩
      · have hidden : scan.removedWriteWasVisible = false := by simpa using scanVisible
        have notBefore : ¬ (start.removedWriteWasVisible = true ∧ ∀ other ∈ rest,
            ¬ (index ≤ other.2 ∧ recordContainsPath other.1 writeToRemove.path = true)) :=
          fun all => scanVisible (shown.mpr all)
        simp only [hidden, Bool.not_false, ↓reduceIte, Bool.false_eq_true, false_iff,
          false_implies, and_true]
        exact fun all => notBefore ⟨all.1, fun later member =>
          all.2 later (List.mem_cons_of_mem _ member)⟩

omit [StringComparator K] in
/-- A scan that ends early met a later record covering the removed one; a scan that
ends without an overlap met no record inside it. -/
theorem removalScan_spec {writeToRemove : FWriteRecord K} {before after : List (FWriteRecord K)}
    (removedVisible : writeToRemove.visible = true)
    (visible : ∀ record ∈ before ++ after, record.visible = true) :
    ((removalScan writeToRemove before.length (before ++ after)).removedWriteWasVisible = false →
      ∃ record ∈ after, recordContainsPath record writeToRemove.path = true) ∧
    ((removalScan writeToRemove before.length (before ++ after)).removedWriteWasVisible = true →
      (∀ record ∈ after, recordContainsPath record writeToRemove.path = false) ∧
      ((removalScan writeToRemove before.length
          (before ++ after)).removedWriteOverlapsWithOtherWrites = false →
        ∀ record ∈ before ++ after, ¬ writeToRemove.path <+: record.path)) := by
  have eachVisible : ∀ other ∈ (before ++ after).zipIdx, other.1.visible = true :=
    fun other member => visible other.1 (List.fst_mem_of_mem_zipIdx member)
  obtain ⟨shown, apart⟩ :=
    scan_spec writeToRemove before.length eachVisible ⟨writeToRemove.visible, false⟩
  rw [removedVisible] at shown apart
  unfold removalScan
  rw [removedVisible]
  constructor
  · intro hidden
    rw [← Bool.not_eq_true, shown] at hidden
    push Not at hidden
    obtain ⟨⟨record, position⟩, member, late, covers⟩ := hidden rfl
    refine ⟨record, ?_, covers⟩
    rw [List.mem_zipIdx_iff_getElem?, List.getElem?_append_right late] at member
    exact List.mem_of_getElem? member
  · intro wasVisible
    refine ⟨fun record member => ?_, fun clear record member => ?_⟩
    · obtain ⟨offset, inside, rfl⟩ := List.getElem_of_mem member
      have placed : (after[offset], before.length + offset) ∈ (before ++ after).zipIdx := by
        rw [List.mem_zipIdx_iff_getElem?]
        simp [inside]
      have misses := (shown.mp wasVisible).2 _ placed
      simpa using misses
    · obtain ⟨position, inside, rfl⟩ := List.getElem_of_mem member
      refine apart wasVisible clear ((before ++ after)[position], position) ?_
      rw [List.mem_zipIdx_iff_getElem?]
      exact List.getElem?_eq_getElem inside

/-! ## Cutting a record out -/

theorem cutOut_eq (visibleWrites : FCompoundWrite K) (writeToRemove : FWriteRecord K) :
    cutOut visibleWrites writeToRemove =
      writeToRemove.elementary.foldl (fun write entry => write.removeWriteAtPath entry.1)
        visibleWrites := by
  unfold cutOut FWriteRecord.elementary
  cases writeToRemove.data with
  | overwrite node => rfl
  | merge merge =>
      simp only [FCompoundWrite.enumerateWrites_eq, List.foldl_map]
      generalize merge.writeTree.entries = entries
      induction entries generalizing visibleWrites with
      | nil => rfl
      | cons entry rest ih => exact ih _

theorem canonical_removeAll {write : FCompoundWrite K} (canonical : write.Canonical)
    (entries : List (FPath K × FNode K)) :
    (entries.foldl (fun write entry => write.removeWriteAtPath entry.1) write).Canonical := by
  induction entries generalizing write with
  | nil => exact canonical
  | cons entry rest ih => exact ih (canonical.removeWriteAtPath entry.1)

theorem nodeAt_removeAll (write : FCompoundWrite K) (entries : List (FPath K × FNode K))
    (query : FPath K) :
    (entries.foldl (fun write entry => write.removeWriteAtPath entry.1) write).nodeAt query =
      if ∃ entry ∈ entries, entry.1 <+: query then none else write.nodeAt query := by
  induction entries generalizing write with
  | nil => simp
  | cons entry rest ih =>
      rw [List.foldl_cons, ih, FCompoundWrite.nodeAt_removeWriteAtPath]
      by_cases later : ∃ entry ∈ rest, entry.1 <+: query
      · rw [if_pos later, if_pos]
        obtain ⟨other, member, onPath⟩ := later
        exact ⟨other, List.mem_cons_of_mem _ member, onPath⟩
      · rw [if_neg later]
        by_cases first : entry.1 <+: query
        · rw [if_pos first, if_pos ⟨entry, List.mem_cons_self, first⟩]
        · rw [if_neg first, if_neg]
          rintro ⟨other, member, onPath⟩
          rcases List.mem_cons.mp member with rfl | inRest
          · exact first onPath
          · exact later ⟨other, inRest, onPath⟩

/-! ## The invariant -/

structure Consistent (tree : FWriteTree K) : Prop where
  sound : ∀ record ∈ tree.allWrites, record.Sound
  visible : ∀ record ∈ tree.allWrites, record.visible = true
  layered : tree.visibleWrites = layerTreeFromWrites tree.allWrites defaultFilter []

theorem Consistent.visibleWrites_eq {tree : FWriteTree K} (consistent : tree.Consistent) :
    tree.visibleWrites = FCompoundWrite.emptyWrite.addAll (pending tree.allWrites) := by
  rw [consistent.layered, layerTreeFromWrites_root]

theorem Consistent.canonical {tree : FWriteTree K} (consistent : tree.Consistent) :
    tree.visibleWrites.Canonical := by
  rw [consistent.visibleWrites_eq]
  exact FCompoundWrite.canonical_emptyWrite.addAll (wellFormed_pending consistent.sound)

theorem init_consistent : (init : FWriteTree K).Consistent := ⟨by simp [init], by simp [init], rfl⟩

/-- A new record that is visible and sound, with its writes added. -/
theorem Consistent.added {tree tree' : FWriteTree K} (consistent : tree.Consistent)
    (record : FWriteRecord K) (sound : record.Sound) (visible : record.visible = true)
    (allWrites : tree'.allWrites = tree.allWrites ++ [record])
    (visibleWrites : tree'.visibleWrites = tree.visibleWrites.addAll record.elementary) :
    tree'.Consistent where
  sound := by
    intro other member
    rw [allWrites] at member
    rcases List.mem_append.mp member with old | new
    · exact consistent.sound other old
    · rwa [List.mem_singleton.mp new]
  visible := by
    intro other member
    rw [allWrites] at member
    rcases List.mem_append.mp member with old | new
    · exact consistent.visible other old
    · rwa [List.mem_singleton.mp new]
  layered := by
    have single : pending [record] = record.elementary := by simp [pending]
    rw [visibleWrites, consistent.visibleWrites_eq, layerTreeFromWrites_root, allWrites,
      pending_append, FCompoundWrite.addAll_append, single]

theorem Consistent.addOverwriteAtPath {tree : FWriteTree K} (consistent : tree.Consistent)
    (path : FPath K) {newData : FNode K} (wf : newData.WellFormed) (writeId : Int) :
    (tree.addOverwriteAtPath path newData writeId true).Consistent :=
  consistent.added (.initWithOverwrite path newData writeId true) wf rfl rfl rfl

theorem Consistent.addMergeAtPath {tree : FWriteTree K} (consistent : tree.Consistent)
    (path : FPath K) {changedChildren : FCompoundWrite K} (canonical : changedChildren.Canonical)
    (writeId : Int) : (tree.addMergeAtPath path changedChildren writeId).Consistent :=
  consistent.added (.initWithMerge path changedChildren writeId) canonical rfl rfl
    (FCompoundWrite.addCompoundWrite_eq _ _ _)

/-! ## Removals -/

/-- What a removal does: the first record with the identifier goes, and the visible
writes stay, are layered again or lose its writes, as the scan says. -/
theorem removeWriteId_eq_some {tree tree' : FWriteTree K} {writeId : Int} {wasVisible : Bool}
    (removed : tree.removeWriteId writeId = some (wasVisible, tree')) :
    ∃ before record after, tree.allWrites = before ++ record :: after ∧
      record.writeId = writeId ∧ (∀ other ∈ before, other.writeId ≠ writeId) ∧
      tree'.allWrites = before ++ after ∧
      ((removalScan record before.length (before ++ after)).removedWriteWasVisible = false ∧
          wasVisible = false ∧ tree'.visibleWrites = tree.visibleWrites ∨
        (removalScan record before.length (before ++ after)).removedWriteWasVisible = true ∧
          wasVisible = true ∧
          ((removalScan record before.length
              (before ++ after)).removedWriteOverlapsWithOtherWrites = true ∧
              tree'.visibleWrites = layerTreeFromWrites (before ++ after) defaultFilter [] ∨
            (removalScan record before.length
              (before ++ after)).removedWriteOverlapsWithOtherWrites = false ∧
              tree'.visibleWrites = cutOut tree.visibleWrites record)) := by
  unfold removeWriteId at removed
  cases position : tree.allWrites.findIdx? (fun record => decide (record.writeId = writeId)) with
  | none => simp [position] at removed
  | some index =>
      obtain ⟨inside, found, earlier⟩ := List.findIdx?_eq_some_iff_getElem.mp position
      have split : tree.allWrites =
          tree.allWrites.take index ++ tree.allWrites[index] :: tree.allWrites.drop (index + 1) := by
        rw [List.getElem_cons_drop, List.take_append_drop]
      have rest : tree.allWrites.eraseIdx index =
          tree.allWrites.take index ++ tree.allWrites.drop (index + 1) :=
        List.eraseIdx_eq_take_drop_succ _ _
      have length : (tree.allWrites.take index).length = index := by
        rw [List.length_take]
        omega
      simp only [position, List.getElem?_eq_getElem inside, rest] at removed
      refine ⟨_, _, _, split, by simpa using found, ?_, ?_⟩
      · intro other member
        obtain ⟨offset, bound, rfl⟩ := List.getElem_of_mem member
        rw [List.length_take] at bound
        rw [List.getElem_take]
        simpa using earlier offset (by omega)
      · rw [length]
        generalize removalScan tree.allWrites[index] _ _ = scan at removed ⊢
        obtain ⟨shown, overlaps⟩ := scan
        cases shown with
        | false =>
            simp only [Bool.not_false, ↓reduceIte, Option.some.injEq, Prod.mk.injEq] at removed
            obtain ⟨rfl, rfl⟩ := removed
            exact ⟨rfl, .inl ⟨rfl, rfl, rfl⟩⟩
        | true =>
            cases overlaps with
            | false =>
                simp only [Bool.not_true, Bool.false_eq_true, ↓reduceIte, Option.some.injEq,
                  Prod.mk.injEq] at removed
                obtain ⟨rfl, rfl⟩ := removed
                exact ⟨rfl, .inr ⟨rfl, rfl, .inr ⟨rfl, rfl⟩⟩⟩
            | true =>
                simp only [Bool.not_true, Bool.false_eq_true, ↓reduceIte, Option.some.injEq,
                  Prod.mk.injEq] at removed
                obtain ⟨rfl, rfl⟩ := removed
                exact ⟨rfl, .inr ⟨rfl, rfl, .inl ⟨rfl, rfl⟩⟩⟩

/-- What keeps a removal from cutting out more or less than its record: no older
write lies above the record, and a write inside it comes from a record inside it. -/
structure Removable (before : List (FWriteRecord K)) (record : FWriteRecord K)
    (after : List (FWriteRecord K)) : Prop where
  older : ∀ entry ∈ pending before, entry.1 <+: record.path → entry.1 = record.path
  inside : ∀ other ∈ before ++ after, ∀ entry ∈ other.elementary,
    record.path <+: entry.1 → record.path <+: other.path

omit [LinearOrder K] [StringComparator K] in
/-- With only overwrites pending, the oldest one can always be removed. -/
theorem removable_oldest (record : FWriteRecord K) {after : List (FWriteRecord K)}
    (overwrites : ∀ other ∈ after, ∃ node, other.data = .overwrite node) :
    Removable [] record after where
  older := by simp [pending]
  inside := by
    intro other member entry inside below
    obtain ⟨node, data⟩ := overwrites other (by simpa using member)
    simp only [FWriteRecord.elementary, data, List.mem_singleton] at inside
    rwa [inside] at below

section Removal

variable {before after : List (FWriteRecord K)} {record : FWriteRecord K}

/-- Without and with the record, the older writes agree outside its path. -/
theorem agreeOutside_record (sound : ∀ other ∈ before ++ record :: after, other.Sound)
    (removable : Removable before record after) :
    FCompoundWrite.AgreeOutside record.path (FCompoundWrite.emptyWrite.addAll (pending before))
      ((FCompoundWrite.emptyWrite.addAll (pending before)).addAll record.elementary) := by
  have beforeWf : ∀ entry ∈ pending before, entry.2.WellFormed :=
    wellFormed_pending fun other member => sound other (List.mem_append_left _ member)
  have recordWf := (sound record (by simp)).elementary
  refine (FCompoundWrite.canonical_emptyWrite.addAll beforeWf).agreeOutside_addAll ?_ recordWf
    fun entry member => FWriteRecord.elementary_below member
  intro above onPath apart
  cases there : (FCompoundWrite.emptyWrite.addAll (pending before)).nodeAt above with
  | none => rfl
  | some held =>
      rcases FCompoundWrite.canonical_emptyWrite.exists_of_addAll beforeWf there with
        ⟨entry, member, same⟩ | ⟨old, oldThere⟩
      · exact absurd (same ▸ removable.older entry member (same ▸ onPath)) apart
      · rw [FCompoundWrite.nodeAt_emptyWrite] at oldThere
        cases oldThere

/-- A later write covers the record: layering with it and without it is the same. -/
theorem layered_of_covered (sound : ∀ other ∈ before ++ record :: after, other.Sound)
    (removable : Removable before record after)
    (covered : ∃ other ∈ after, recordContainsPath other record.path = true) :
    FCompoundWrite.emptyWrite.addAll (pending (before ++ record :: after)) =
      FCompoundWrite.emptyWrite.addAll (pending (before ++ after)) := by
  have agree := agreeOutside_record sound removable
  have afterWf : ∀ entry ∈ pending after, entry.2.WellFormed :=
    wellFormed_pending fun other member => sound other (by simp [member])
  have split : pending (before ++ record :: after) =
      pending before ++ (record.elementary ++ pending after) := by simp [pending]
  rw [split, pending_append, FCompoundWrite.addAll_append, FCompoundWrite.addAll_append,
    FCompoundWrite.addAll_append]
  refine (agree.addAll_covering afterWf ?_).symm
  obtain ⟨other, member, contains⟩ := covered
  obtain ⟨entry, inside, onPath⟩ := (recordContainsPath_iff other record.path).mp contains
  exact ⟨entry, mem_pending.mpr ⟨other, member, inside⟩, onPath⟩

/-- No other record is inside the record and no later one covers it: cutting its
writes out leaves what layering the others leaves. -/
theorem layered_of_apart (sound : ∀ other ∈ before ++ record :: after, other.Sound)
    (removable : Removable before record after)
    (uncovered : ∀ other ∈ after, recordContainsPath other record.path = false)
    (apart : ∀ other ∈ before ++ after, ¬ record.path <+: other.path) :
    cutOut (FCompoundWrite.emptyWrite.addAll (pending (before ++ record :: after))) record =
      FCompoundWrite.emptyWrite.addAll (pending (before ++ after)) := by
  have agree := agreeOutside_record sound removable
  have allWf := wellFormed_pending sound
  have restWf : ∀ entry ∈ pending (before ++ after), entry.2.WellFormed := by
    refine wellFormed_pending fun other member => sound other ?_
    rcases List.mem_append.mp member with old | new
    · exact List.mem_append_left _ old
    · exact List.mem_append_right _ (List.mem_cons_of_mem _ new)
  have afterWf : ∀ entry ∈ pending after, entry.2.WellFormed :=
    wellFormed_pending fun other member => sound other (by simp [member])
  have misses : ∀ entry ∈ pending after, ¬ entry.1 <+: record.path := by
    intro entry member onPath
    obtain ⟨other, held, inside⟩ := mem_pending.mp member
    have contains := (recordContainsPath_iff other record.path).mpr ⟨entry, inside, onPath⟩
    rw [uncovered other held] at contains
    cases contains
  have layered := agree.addAll afterWf misses
  have split : pending (before ++ record :: after) =
      pending before ++ (record.elementary ++ pending after) := by simp [pending]
  have whole : ((FCompoundWrite.emptyWrite.addAll (pending before)).addAll
      record.elementary).addAll (pending after) =
        FCompoundWrite.emptyWrite.addAll (pending (before ++ record :: after)) := by
    rw [split, FCompoundWrite.addAll_append, FCompoundWrite.addAll_append]
  have rest : (FCompoundWrite.emptyWrite.addAll (pending before)).addAll (pending after) =
      FCompoundWrite.emptyWrite.addAll (pending (before ++ after)) := by
    rw [pending_append, FCompoundWrite.addAll_append]
  rw [whole, rest] at layered
  have canonical := FCompoundWrite.canonical_emptyWrite.addAll allWf
  rw [cutOut_eq]
  refine (canonical_removeAll canonical _).ext layered.leftCanonical fun query => ?_
  rw [nodeAt_removeAll]
  by_cases inside : record.path <+: query
  · have bare : (FCompoundWrite.emptyWrite.addAll (pending (before ++ after))).nodeAt query =
        none := by
      cases there : (FCompoundWrite.emptyWrite.addAll (pending (before ++ after))).nodeAt query with
      | none => rfl
      | some held =>
          rcases FCompoundWrite.canonical_emptyWrite.exists_of_addAll restWf there with
            ⟨entry, member, same⟩ | ⟨old, oldThere⟩
          · obtain ⟨other, held, found⟩ := mem_pending.mp member
            exact absurd (removable.inside other held entry found (same ▸ inside))
              (apart other held)
          · rw [FCompoundWrite.nodeAt_emptyWrite] at oldThere
            cases oldThere
    rw [bare]
    split
    · rfl
    · next kept =>
        cases there :
            (FCompoundWrite.emptyWrite.addAll (pending (before ++ record :: after))).nodeAt query with
        | none => rfl
        | some held =>
            rcases FCompoundWrite.canonical_emptyWrite.exists_of_addAll allWf there with
              ⟨entry, member, same⟩ | ⟨old, oldThere⟩
            · obtain ⟨other, held, found⟩ := mem_pending.mp member
              rcases List.mem_append.mp held with old | new
              · exact absurd (removable.inside other (List.mem_append_left _ old) entry found
                  (same ▸ inside)) (apart other (List.mem_append_left _ old))
              · rcases List.mem_cons.mp new with rfl | later
                · exact absurd ⟨entry, found, same ▸ List.prefix_refl _⟩ kept
                · exact absurd (removable.inside other (List.mem_append_right _ later) entry found
                    (same ▸ inside)) (apart other (List.mem_append_right _ later))
            · rw [FCompoundWrite.nodeAt_emptyWrite] at oldThere
              cases oldThere
  · rw [if_neg]
    · exact (layered.outside query inside).symm
    · rintro ⟨entry, member, onPath⟩
      exact inside ((FWriteRecord.elementary_below member).trans onPath)

end Removal

theorem Consistent.removeWriteId {tree tree' : FWriteTree K} (consistent : tree.Consistent)
    {writeId : Int} {wasVisible : Bool}
    (removed : tree.removeWriteId writeId = some (wasVisible, tree'))
    (removable : ∀ before record after, tree.allWrites = before ++ record :: after →
      record.writeId = writeId → (∀ other ∈ before, other.writeId ≠ writeId) →
        Removable before record after) : tree'.Consistent := by
  obtain ⟨before, record, after, split, identified, first, allWrites, outcome⟩ :=
    removeWriteId_eq_some removed
  have sound := consistent.sound
  have visible := consistent.visible
  have layered := consistent.visibleWrites_eq
  rw [split] at sound visible layered
  have kept : ∀ {other}, other ∈ before ++ after → other ∈ before ++ record :: after := by
    intro other member
    rcases List.mem_append.mp member with old | new
    · exact List.mem_append_left _ old
    · exact List.mem_append_right _ (List.mem_cons_of_mem _ new)
  have may := removable before record after split identified first
  have restVisible : ∀ other ∈ before ++ after, other.visible = true := fun other member =>
    visible other (kept member)
  obtain ⟨hidden, shown⟩ := removalScan_spec (visible record (by simp)) restVisible
  refine ⟨?_, ?_, ?_⟩
  · rw [allWrites]
    exact fun other member => sound other (kept member)
  · rw [allWrites]
    exact restVisible
  · rw [allWrites, layerTreeFromWrites_root]
    rcases outcome with ⟨notVisible, -, same⟩ | ⟨wasShown, -, ⟨overlaps, reset⟩ | ⟨clear, cut⟩⟩
    · rw [same, layered]
      exact layered_of_covered sound may (hidden notVisible)
    · rw [reset, layerTreeFromWrites_root]
    · obtain ⟨uncovered, apart⟩ := shown wasShown
      rw [cut, layered]
      exact layered_of_apart sound may uncovered (apart clear)

end FWriteTree

end PicksOnMap.Source
