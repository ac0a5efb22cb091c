import PicksOnMap.Guarantees.PathTrees
import PicksOnMap.Guarantees.WrittenNodes
import PicksOnMap.Source.CompoundWrite

/-!
# A compound write stands for its writes, one after the other

Adding a write to a compound write and applying the result to a node gives what
updating the node with both gives. Inside a compound write no write lies below
another one (`Canonical.terminal`): the writes touch different paths, and the order
in which they are applied does not show.
-/
namespace PicksOnMap.Source.FCompoundWrite

open Support Support.LeafMap Support.SortedEntries

variable {K : Type} [LinearOrder K] [StringComparator K]

/-- The write at exactly this path. -/
def nodeAt (write : FCompoundWrite K) (path : FPath K) : Option (FNode K) :=
  write.writeTree.valueAtPath path

structure Canonical (write : FCompoundWrite K) : Prop where
  tree : write.writeTree.WellFormed
  nodes : ∀ path node, write.nodeAt path = some node → node.WellFormed
  terminal : ∀ path below node other, write.nodeAt path = some node →
    write.nodeAt below = some other → path <+: below → path = below

omit [StringComparator K] in
theorem nodeAt_emptyWrite (path : FPath K) :
    (emptyWrite : FCompoundWrite K).nodeAt path = none :=
  FImmutableTree.valueAtPath_empty path

theorem canonical_emptyWrite : (emptyWrite : FCompoundWrite K).Canonical where
  tree := FImmutableTree.empty_wellFormed
  nodes := fun path node held => by simp [nodeAt_emptyWrite] at held
  terminal := fun path below node other held => by simp [nodeAt_emptyWrite] at held

theorem Canonical.ext {left right : FCompoundWrite K} (leftCanonical : left.Canonical)
    (rightCanonical : right.Canonical) (same : ∀ path, left.nodeAt path = right.nodeAt path) :
    left = right := by
  have trees := leftCanonical.tree.ext rightCanonical.tree same
  cases left
  cases right
  cases trees
  rfl

/-! ## Reading -/

theorem Canonical.findRootMost {write : FCompoundWrite K} (canonical : write.Canonical)
    {path found : FPath K} {value : FNode K} :
    write.writeTree.findRootMostValueAndPath path = some (found, value) ↔
      found <+: path ∧ write.nodeAt found = some value := by
  rw [FImmutableTree.findRootMost_eq_some]
  constructor
  · rintro ⟨onPath, held, -⟩
    exact ⟨onPath, held⟩
  · rintro ⟨onPath, held⟩
    refine ⟨onPath, held, fun above between apart => ?_⟩
    cases other : write.writeTree.valueAtPath above with
    | none => rfl
    | some node => exact absurd (canonical.terminal above found node value other held between) apart

theorem Canonical.completeNodeAtPath {write : FCompoundWrite K} (canonical : write.Canonical)
    {found : FPath K} {value : FNode K} (held : write.nodeAt found = some value) (rest : FPath K) :
    write.completeNodeAtPath (found ++ rest) = some (value.getChild rest) := by
  have rootMost := canonical.findRootMost.mpr ⟨List.prefix_append found rest, held⟩
  simp only [FCompoundWrite.completeNodeAtPath, rootMost, FPath.within, List.drop_left]

omit [StringComparator K] in
theorem completeNodeAtPath_eq_none {write : FCompoundWrite K} {path : FPath K} :
    write.completeNodeAtPath path = none ↔
      ∀ above, above <+: path → write.nodeAt above = none := by
  unfold nodeAt
  rw [← FImmutableTree.findRootMost_eq_none]
  unfold completeNodeAtPath
  cases write.writeTree.findRootMostValueAndPath path <;> simp

theorem Canonical.completeNodeAtPath_eq_some {write : FCompoundWrite K}
    (canonical : write.Canonical) {path : FPath K} {node : FNode K} :
    write.completeNodeAtPath path = some node ↔
      ∃ found rest value, path = found ++ rest ∧ write.nodeAt found = some value ∧
        value.getChild rest = node := by
  constructor
  · intro complete
    cases rootMost : write.writeTree.findRootMostValueAndPath path with
    | none => simp [FCompoundWrite.completeNodeAtPath, rootMost] at complete
    | some entry =>
        obtain ⟨found, value⟩ := entry
        obtain ⟨⟨rest, rfl⟩, held⟩ := canonical.findRootMost.mp rootMost
        rw [canonical.completeNodeAtPath held] at complete
        exact ⟨found, rest, value, rfl, held, by simpa using complete⟩
  · rintro ⟨found, rest, value, rfl, held, rfl⟩
    exact canonical.completeNodeAtPath held rest

theorem Canonical.completeNodeAtPath_wellFormed {write : FCompoundWrite K}
    (canonical : write.Canonical) {path : FPath K} {node : FNode K}
    (complete : write.completeNodeAtPath path = some node) : node.WellFormed := by
  obtain ⟨found, rest, value, -, held, rfl⟩ := canonical.completeNodeAtPath_eq_some.mp complete
  exact (canonical.nodes found value held).getChild rest

/-! ## Adding and removing writes -/

theorem Canonical.nodeAt_addWrite_merged {write : FCompoundWrite K} (canonical : write.Canonical)
    {found : FPath K} {value : FNode K} (held : write.nodeAt found = some value)
    (rest query : FPath K)
    (node : FNode K) :
    (write.addWrite node (found ++ rest)).nodeAt query =
      if query = found then some (value.updateChild rest node) else write.nodeAt query := by
  unfold addWrite
  split
  · next root =>
      obtain ⟨rfl, rfl⟩ := List.append_eq_nil_iff.mp (List.isEmpty_iff.mp root)
      have whole : value.updateChild [] node = node := by cases value <;> rfl
      have single : (⟨.initWithValue node⟩ : FCompoundWrite K).nodeAt query =
          if query = [] then some node else none :=
        FImmutableTree.valueAtPath_initWithValue node query
      rw [single, whole]
      split
      · rfl
      · next below =>
          cases other : write.nodeAt query with
          | none => rfl
          | some node =>
              exact absurd (canonical.terminal _ _ _ _ held other List.nil_prefix) (Ne.symm below)
  · have rootMost := canonical.findRootMost.mpr ⟨List.prefix_append found rest, held⟩
    simp only [rootMost, FPath.within, List.drop_left]
    rw [nodeAt, FImmutableTree.valueAtPath_setValue]
    by_cases same : query = found
    · rw [if_pos same, if_pos same]
    · rw [if_neg same, if_neg same, nodeAt]

theorem nodeAt_addWrite_free {write : FCompoundWrite K} {path : FPath K}
    (free : ∀ above, above <+: path → write.nodeAt above = none) (node : FNode K)
    (query : FPath K) :
    (write.addWrite node path).nodeAt query =
      if path <+: query then (if query = path then some node else none)
      else write.nodeAt query := by
  have onlyThere : ∀ below : FPath K,
      (FImmutableTree.initWithValue node : FImmutableTree K (FNode K)).valueAtPath below =
        if path ++ below = path then some node else none := by
    intro below
    rw [FImmutableTree.valueAtPath_initWithValue]
    simp
  unfold addWrite
  split
  · next root =>
      obtain rfl := List.isEmpty_iff.mp root
      rw [if_pos List.nil_prefix]
      exact onlyThere query
  · have rootMost := (FImmutableTree.findRootMost_eq_none write.writeTree path).mpr free
    simp only [rootMost]
    rw [nodeAt, FImmutableTree.valueAtPath_setTree]
    split
    · next below =>
        obtain ⟨rest, rfl⟩ := below
        rw [List.drop_left, onlyThere]
    · rfl

theorem nodeAt_removeWriteAtPath (write : FCompoundWrite K) (path query : FPath K) :
    (write.removeWriteAtPath path).nodeAt query =
      if path <+: query then none else write.nodeAt query := by
  unfold removeWriteAtPath
  split
  · next root =>
      obtain rfl := List.isEmpty_iff.mp root
      rw [if_pos List.nil_prefix, nodeAt_emptyWrite]
  · rw [nodeAt, FImmutableTree.valueAtPath_setTree, FImmutableTree.valueAtPath_empty]
    by_cases below : path <+: query
    · rw [if_pos below, if_pos below]
    · rw [if_neg below, if_neg below, nodeAt]

omit [StringComparator K] in
/-- A path has a write at or above it, or none. -/
theorem merged_or_free (write : FCompoundWrite K) (path : FPath K) :
    (∃ found rest value, path = found ++ rest ∧ write.nodeAt found = some value) ∨
      ∀ above, above <+: path → write.nodeAt above = none := by
  by_cases free : ∀ above, above <+: path → write.nodeAt above = none
  · exact .inr free
  · push Not at free
    obtain ⟨found, ⟨rest, rfl⟩, held⟩ := free
    obtain ⟨value, held⟩ := Option.ne_none_iff_exists'.mp held
    exact .inl ⟨found, rest, value, rfl, held⟩

theorem addWrite_wellFormed {write : FCompoundWrite K} (wf : write.writeTree.WellFormed)
    (node : FNode K) (path : FPath K) : (write.addWrite node path).writeTree.WellFormed := by
  unfold addWrite
  split
  · exact FImmutableTree.initWithValue_wellFormed node
  · split
    · exact wf.setValue _ _
    · exact wf.setTree (FImmutableTree.initWithValue_wellFormed node) path

theorem Canonical.addWrite {write : FCompoundWrite K} (canonical : write.Canonical) {node : FNode K}
    (wf : node.WellFormed) (path : FPath K) : (write.addWrite node path).Canonical := by
  rcases write.merged_or_free path with ⟨found, rest, value, rfl, held⟩ | free
  · have lookup := fun query => canonical.nodeAt_addWrite_merged held rest query node
    have domain : ∀ query other, (write.addWrite node (found ++ rest)).nodeAt query = some other →
        ∃ old, write.nodeAt query = some old := by
      intro query other there
      rw [lookup] at there
      split at there
      · next same => exact ⟨value, by rw [same, held]⟩
      · exact ⟨other, there⟩
    refine ⟨addWrite_wellFormed canonical.tree node _, fun query other there => ?_,
      fun query below other third there further onPath => ?_⟩
    · rw [lookup] at there
      split at there
      · cases there
        exact (canonical.nodes found value held).updateChild wf rest
      · exact canonical.nodes query other there
    · obtain ⟨old, oldThere⟩ := domain query other there
      obtain ⟨oldBelow, oldFurther⟩ := domain below third further
      exact canonical.terminal _ _ _ _ oldThere oldFurther onPath
  · have lookup := nodeAt_addWrite_free free node
    refine ⟨addWrite_wellFormed canonical.tree node _, fun query other there => ?_,
      fun query below other third there further onPath => ?_⟩
    · rw [lookup] at there
      split at there
      · split at there
        · cases there
          exact wf
        · cases there
      · exact canonical.nodes query other there
    · rw [lookup] at there further
      split at there
      · next under =>
          have at_path : query = path := by
            by_contra different
            simp [different] at there
          rw [if_pos (at_path ▸ onPath)] at further
          have below_path : below = path := by
            by_contra different
            simp [different] at further
          rw [at_path, below_path]
      · next outside =>
          split at further
          · have below_path : below = path := by
              by_contra different
              simp [different] at further
            rw [free query (below_path ▸ onPath)] at there
            cases there
          · exact canonical.terminal _ _ _ _ there further onPath

theorem Canonical.removeWriteAtPath {write : FCompoundWrite K} (canonical : write.Canonical)
    (path : FPath K) : (write.removeWriteAtPath path).Canonical := by
  have kept : ∀ query node, (write.removeWriteAtPath path).nodeAt query = some node →
      write.nodeAt query = some node := by
    intro query node there
    rw [nodeAt_removeWriteAtPath] at there
    split at there
    · cases there
    · exact there
  refine ⟨?_, fun query node there => canonical.nodes query node (kept query node there),
    fun query below node other there further =>
      canonical.terminal _ _ _ _ (kept _ _ there) (kept _ _ further)⟩
  unfold FCompoundWrite.removeWriteAtPath
  split
  · exact FImmutableTree.empty_wellFormed
  · exact canonical.tree.setTree FImmutableTree.empty_wellFormed path

/-! ## Applying to a node -/

/-- The writes on leaves that the tree stands for, in the order of its traversal. -/
def writes (write : FCompoundWrite K) : List (Write K FValue) :=
  write.writeTree.entries.map fun entry => FNode.writeOf entry.1 entry.2

omit [StringComparator K] in
theorem applyChildWrites_eq {children : List (K × FImmutableTree K (FNode K))}
    (each : ∀ child ∈ children, ∀ path node, applySubtreeWrite path child.2 node =
      child.2.entries.foldl (fun node entry => node.updateChild (path ++ entry.1) entry.2) node)
    (path : FPath K) (node : FNode K) :
    applyChildWrites path children node = (FImmutableTree.entriesOfChildren children).foldl
      (fun node entry => node.updateChild (path ++ entry.1) entry.2) node := by
  induction children generalizing node with
  | nil => rfl
  | cons child rest ih =>
      obtain ⟨childKey, childTree⟩ := child
      have first := each (childKey, childTree) List.mem_cons_self (path ++ [childKey]) node
      simp only [applyChildWrites, FImmutableTree.entriesOfChildren, List.foldl_append,
        List.foldl_map]
      rw [first, ih fun child member => each child (List.mem_cons_of_mem _ member)]
      simp only [List.append_assoc, List.singleton_append]

/-- Where no write lies below another one, stopping at the first value misses none. -/
theorem applySubtreeWrite_eq {tree : FImmutableTree K (FNode K)} (wf : tree.WellFormed)
    (terminal : ∀ path below node other, tree.valueAtPath path = some node →
      tree.valueAtPath below = some other → path <+: below → path = below)
    (path : FPath K) (node : FNode K) :
    applySubtreeWrite path tree node =
      tree.entries.foldl (fun node entry => node.updateChild (path ++ entry.1) entry.2) node := by
  induction wf generalizing path node with
  | @node held children sorted pruned each ih =>
      cases held with
      | some value =>
          have alone : children = [] := by
            cases children with
            | nil => rfl
            | cons child rest =>
                have member : child ∈ child :: rest := List.mem_cons_self
                obtain ⟨below, other, found⟩ :=
                  (each child member).exists_value (pruned child member)
                have placed : (FImmutableTree.node (some value) (child :: rest)).valueAtPath
                    (child.1 :: below) = some other := by
                  simpa [FImmutableTree.valueAtPath, get?] using found
                have same := terminal [] (child.1 :: below) value other rfl placed List.nil_prefix
                cases same
          subst alone
          simp [applySubtreeWrite, FImmutableTree.entries, FImmutableTree.entriesOfChildren]
      | none =>
          have childTerminal : ∀ child ∈ children, ∀ path below node other,
              child.2.valueAtPath path = some node → child.2.valueAtPath below = some other →
                path <+: below → path = below := by
            intro child member path below node other held further onPath
            have lookup := FImmutableTree.get?_of_mem sorted member
            have extended := terminal (child.1 :: path) (child.1 :: below) node other
              (by simpa [FImmutableTree.valueAtPath, lookup] using held)
              (by simpa [FImmutableTree.valueAtPath, lookup] using further)
              (List.cons_prefix_cons.mpr ⟨rfl, onPath⟩)
            exact (List.cons.inj extended).2
          simp only [applySubtreeWrite, FImmutableTree.entries, Option.toList_none, List.map_nil,
            List.append_nil]
          exact applyChildWrites_eq
            (fun child member => ih child member (childTerminal child member)) path node

theorem Canonical.applyToNode_eq {write : FCompoundWrite K} (canonical : write.Canonical)
    (node : FNode K) :
    write.applyToNode node =
      write.writeTree.entries.foldl (fun node entry => node.updateChild entry.1 entry.2) node := by
  unfold applyToNode
  rw [applySubtreeWrite_eq canonical.tree canonical.terminal [] node]
  simp only [List.nil_append]

theorem Canonical.applyToNode_wellFormed {write : FCompoundWrite K} (canonical : write.Canonical)
    {node : FNode K} (wf : node.WellFormed) : (write.applyToNode node).WellFormed := by
  rw [canonical.applyToNode_eq]
  have each : ∀ entry ∈ write.writeTree.entries, entry.2.WellFormed := fun entry member =>
    canonical.nodes entry.1 entry.2 ((canonical.tree.mem_entries _ _).mp member)
  generalize write.writeTree.entries = entries at each
  induction entries generalizing node with
  | nil => exact wf
  | cons entry rest ih =>
      exact ih (wf.updateChild (each entry List.mem_cons_self) entry.1)
        fun later member => each later (List.mem_cons_of_mem _ member)

theorem Canonical.leafAt_applyToNode {write : FCompoundWrite K} (canonical : write.Canonical)
    (node : FNode K) :
    (write.applyToNode node).leafAt = overlay write.writes node.leafAt := by
  rw [canonical.applyToNode_eq, writes]
  generalize write.writeTree.entries = entries
  induction entries generalizing node with
  | nil => rfl
  | cons entry rest ih =>
      rw [List.foldl_cons, List.map_cons, overlay_cons, ih, FNode.leafAt_updateChild]

theorem Canonical.mem_writes {write : FCompoundWrite K} (canonical : write.Canonical)
    (single : Write K FValue) :
    single ∈ write.writes ↔
      ∃ path node, write.nodeAt path = some node ∧ FNode.writeOf path node = single := by
  simp only [writes, List.mem_map, Prod.exists, canonical.tree.mem_entries]
  rfl

theorem Canonical.prefixFree {write : FCompoundWrite K} (canonical : write.Canonical) :
    PrefixFree write.writes := by
  have distinct : write.writeTree.entries.Pairwise fun first second => first.1 ≠ second.1 :=
    List.pairwise_map.mp canonical.tree.entries_nodup
  refine List.pairwise_map.mpr (distinct.imp_of_mem fun {first second} member later apart => ?_)
  have held := (canonical.tree.mem_entries _ _).mp member
  have laterHeld := (canonical.tree.mem_entries _ _).mp later
  rintro (under | above)
  · exact apart (canonical.terminal _ _ _ _ held laterHeld under)
  · exact apart (canonical.terminal _ _ _ _ laterHeld held above).symm

/-- Under a write the leaves are its own. -/
theorem Canonical.leafAt_applyToNode_below {write : FCompoundWrite K} (canonical : write.Canonical)
    {path : FPath K} {value : FNode K} (held : write.nodeAt path = some value) (node : FNode K)
    (rest : FPath K) : (write.applyToNode node).leafAt (path ++ rest) = value.leafAt rest := by
  have member := (canonical.mem_writes _).mpr ⟨path, value, held, rfl⟩
  have touched : (FNode.writeOf path value).Touches (path ++ rest) := .inl (List.prefix_append _ _)
  rw [canonical.leafAt_applyToNode, overlay_of_touches canonical.prefixFree member touched]
  by_cases empty : value.isEmpty = true
  · simp [Write.valueAt, FNode.writeOf, FNode.eq_emptyNode_of_isEmpty empty, FNode.leafAt_emptyNode]
  · simp [Write.valueAt, FNode.writeOf, empty]

/-- On the way to a write that puts something there is no leaf. -/
theorem Canonical.leafAt_applyToNode_above {write : FCompoundWrite K} (canonical : write.Canonical)
    {path query : FPath K} {value : FNode K} (held : write.nodeAt path = some value)
    (full : value.isEmpty = false) (above : query <+: path) (apart : query ≠ path)
    (node : FNode K) :
    (write.applyToNode node).leafAt query = none := by
  have member := (canonical.mem_writes _).mpr ⟨path, value, held, rfl⟩
  have touched : (FNode.writeOf path value).Touches query :=
    .inr ⟨by simp [FNode.writeOf, full], above⟩
  rw [canonical.leafAt_applyToNode, overlay_of_touches canonical.prefixFree member touched]
  refine Write.valueAt_of_not_below fun under => apart ?_
  exact above.eq_of_length_le under.length_le

/-- Everywhere else the node's own leaves show. -/
theorem Canonical.leafAt_applyToNode_free {write : FCompoundWrite K} (canonical : write.Canonical)
    {query : FPath K} (free : ∀ above, above <+: query → write.nodeAt above = none)
    (bare : ∀ path value, write.nodeAt path = some value → query <+: path →
      value.isEmpty = true) (node : FNode K) :
    (write.applyToNode node).leafAt query = node.leafAt query := by
  rw [canonical.leafAt_applyToNode]
  refine overlay_of_not_touches (fun single member touched => ?_) _
  obtain ⟨path, value, held, rfl⟩ := (canonical.mem_writes _).mp member
  rcases touched with under | ⟨puts, above⟩
  · rw [free path under] at held
    cases held
  · simp [FNode.writeOf, bare path value held above] at puts

/-- A path that no write covers and that is no leaf of the node stays without one. -/
theorem Canonical.leafAt_applyToNode_eq_none {write : FCompoundWrite K}
    (canonical : write.Canonical) {query : FPath K}
    (free : ∀ above, above <+: query → write.nodeAt above = none) {node : FNode K}
    (noLeaf : node.leafAt query = none) : (write.applyToNode node).leafAt query = none := by
  by_cases bare : ∀ path value, write.nodeAt path = some value → query <+: path →
      value.isEmpty = true
  · rw [canonical.leafAt_applyToNode_free free bare, noLeaf]
  · push Not at bare
    obtain ⟨path, value, held, above, full⟩ := bare
    refine canonical.leafAt_applyToNode_above held (by simpa using full) above ?_ node
    rintro rfl
    rw [free query (List.prefix_refl _)] at held
    cases held

/-- Only the writes comparable with a path matter for its leaf. -/
theorem Canonical.leafAt_applyToNode_congr {left right : FCompoundWrite K}
    (leftCanonical : left.Canonical) (rightCanonical : right.Canonical) {query : FPath K}
    (same : ∀ path, Comparable path query → left.nodeAt path = right.nodeAt path) (node : FNode K) :
    (left.applyToNode node).leafAt query = (right.applyToNode node).leafAt query := by
  rcases left.merged_or_free query with ⟨found, rest, value, rfl, held⟩ | free
  · have near : Comparable found (found ++ rest) := .inl (List.prefix_append _ _)
    rw [leftCanonical.leafAt_applyToNode_below held,
      rightCanonical.leafAt_applyToNode_below ((same found near).symm.trans held)]
  · have rightFree : ∀ above, above <+: query → right.nodeAt above = none := fun above onPath =>
      (same above (.inl onPath)).symm.trans (free above onPath)
    by_cases bare : ∀ path value, left.nodeAt path = some value → query <+: path →
        value.isEmpty = true
    · have rightBare : ∀ path value, right.nodeAt path = some value → query <+: path →
          value.isEmpty = true := fun path value held above =>
        bare path value ((same path (.inr above)).trans held) above
      rw [leftCanonical.leafAt_applyToNode_free free bare,
        rightCanonical.leafAt_applyToNode_free rightFree rightBare]
    · push Not at bare
      obtain ⟨path, value, held, above, full⟩ := bare
      have apart : query ≠ path := by
        rintro rfl
        rw [free query (List.prefix_refl _)] at held
        cases held
      have full : value.isEmpty = false := by simpa using full
      rw [leftCanonical.leafAt_applyToNode_above held full above apart,
        rightCanonical.leafAt_applyToNode_above ((same path (.inr above)).symm.trans held) full
          above apart]

/-! ## Adding a write and applying it -/

theorem Canonical.free_above {write : FCompoundWrite K} (canonical : write.Canonical)
    {found query : FPath K} {value : FNode K} (held : write.nodeAt found = some value)
    (above : query <+: found) (apart : query ≠ found) :
    ∀ between, between <+: query → write.nodeAt between = none := by
  intro between onPath
  cases other : write.nodeAt between with
  | none => rfl
  | some node =>
      have same := canonical.terminal _ _ _ _ other held (onPath.trans above)
      exact absurd (above.eq_of_length_le (same ▸ onPath).length_le) apart

/-- Strictly above the path of an update that is not covered there, the update takes
the leaf away or, being a removal, finds none. -/
theorem Canonical.updated_above {write : FCompoundWrite K} (canonical : write.Canonical)
    {node base : FNode K} {path query : FPath K}
    (clear : node.isEmpty = true → ¬ base.BelowLeaf path) (above : query <+: path)
    (apart : query ≠ path) (free : ∀ between, between <+: query → write.nodeAt between = none) :
    ((write.applyToNode base).updateChild path node).leafAt query = none := by
  have notBelow : ¬ path <+: query := fun under =>
    apart (above.eq_of_length_le under.length_le)
  rw [FNode.leafAt_updateChild]
  by_cases empty : node.isEmpty = true
  · have untouched : ¬ (FNode.writeOf path node).Touches query := by
      simp [Write.Touches, FNode.writeOf, empty, notBelow]
    rw [Write.apply_of_not_touches untouched]
    exact canonical.leafAt_applyToNode_eq_none free
      (FNode.leafAt_above_of_not_belowLeaf (clear empty) above apart)
  · have touched : (FNode.writeOf path node).Touches query :=
      .inr ⟨by simp [FNode.writeOf, empty], above⟩
    rw [Write.apply_of_touches touched]
    exact Write.valueAt_of_not_below notBelow

/-- A path apart from the update keeps its leaf, if the same writes are near it. -/
theorem Canonical.updated_apart {write added : FCompoundWrite K} (canonical : write.Canonical)
    (addedCanonical : added.Canonical) (node base : FNode K) {path query : FPath K}
    (apart : ¬ Comparable path query)
    (same : ∀ near, Comparable near query → added.nodeAt near = write.nodeAt near) :
    (added.applyToNode base).leafAt query =
      ((write.applyToNode base).updateChild path node).leafAt query := by
  have untouched : ¬ (FNode.writeOf path node).Touches query := fun touched =>
    apart touched.comparable
  rw [FNode.leafAt_updateChild, Write.apply_of_not_touches untouched]
  exact addedCanonical.leafAt_applyToNode_congr canonical same base

/-- An added write shows as an update of the node. A removal is the exception: if the
node under the writes has a leaf on the way to it, the update leaves that leaf alone,
while the compound write may lose the writes that had covered it. -/
theorem Canonical.applyToNode_addWrite {write : FCompoundWrite K} (canonical : write.Canonical)
    {node base : FNode K} (wf : node.WellFormed) (baseWf : base.WellFormed) {path : FPath K}
    (clear : node.isEmpty = true → ¬ base.BelowLeaf path) :
    (write.addWrite node path).applyToNode base =
      (write.applyToNode base).updateChild path node := by
  have added := canonical.addWrite wf path
  refine (added.applyToNode_wellFormed baseWf).ext
    ((canonical.applyToNode_wellFormed baseWf).updateChild wf path) fun query => ?_
  rcases write.merged_or_free path with ⟨found, rest, value, rfl, held⟩ | free
  · have lookup := fun query => canonical.nodeAt_addWrite_merged held rest query node
    have merged := lookup found
    rw [if_pos rfl] at merged
    by_cases under : found <+: query
    · obtain ⟨below, rfl⟩ := under
      have shown : (fun below => (write.applyToNode base).leafAt (found ++ below)) =
          value.leafAt := funext fun below => canonical.leafAt_applyToNode_below held base below
      rw [added.leafAt_applyToNode_below merged, FNode.leafAt_updateChild,
        FNode.leafAt_updateChild, FNode.writeOf, FNode.writeOf, Write.apply_append, shown]
    · by_cases above : query <+: found
      · have apart : query ≠ found := fun same => under (same ▸ List.prefix_refl _)
        have strict : query ≠ found ++ rest := fun same => under (same ▸ List.prefix_append _ _)
        have onPath := above.trans (List.prefix_append found rest)
        rw [canonical.updated_above clear onPath strict (canonical.free_above held above apart)]
        by_cases empty : node.isEmpty = true
        · exact added.leafAt_applyToNode_eq_none (added.free_above merged above apart)
            (FNode.leafAt_above_of_not_belowLeaf (clear empty) onPath strict)
        · exact added.leafAt_applyToNode_above merged
            (FNode.isEmpty_updateChild value rest (by simpa using empty)) above apart base
      · refine canonical.updated_apart added node base ?_ fun near comparable => ?_
        · rintro (below | onPath)
          · exact under ((List.prefix_append found rest).trans below)
          · rcases List.prefix_or_prefix_of_prefix (List.prefix_append found rest) onPath with
              below | onFound
            · exact under below
            · exact above onFound
        · rw [lookup, if_neg]
          rintro rfl
          exact comparable.elim under above
  · have lookup := nodeAt_addWrite_free free node
    have placed := lookup path
    rw [if_pos (List.prefix_refl path), if_pos rfl] at placed
    by_cases under : path <+: query
    · obtain ⟨below, rfl⟩ := under
      rw [added.leafAt_applyToNode_below placed, ← FNode.leafAt_getChild,
        FNode.getChild_updateChild_self]
    · by_cases above : query <+: path
      · have apart : query ≠ path := fun same => under (same ▸ List.prefix_refl _)
        have freeAbove : ∀ between, between <+: query → write.nodeAt between = none :=
          fun between onPath => free between (onPath.trans above)
        rw [canonical.updated_above clear above apart freeAbove]
        by_cases empty : node.isEmpty = true
        · exact added.leafAt_applyToNode_eq_none (added.free_above placed above apart)
            (FNode.leafAt_above_of_not_belowLeaf (clear empty) above apart)
        · exact added.leafAt_applyToNode_above placed (by simpa using empty) above apart base
      · refine canonical.updated_apart added node base (fun near => near.elim under above)
          fun near comparable => ?_
        rw [lookup, if_neg]
        intro below
        rcases comparable with onQuery | belowQuery
        · exact under (below.trans onQuery)
        · rcases List.prefix_or_prefix_of_prefix below belowQuery with first | second
          · exact under first
          · exact above second

/-! ## Many writes -/

def addAll (write : FCompoundWrite K) (writes : List (FPath K × FNode K)) : FCompoundWrite K :=
  writes.foldl (fun write entry => write.addWrite entry.2 entry.1) write

theorem addAll_append (write : FCompoundWrite K) (first second : List (FPath K × FNode K)) :
    write.addAll (first ++ second) = (write.addAll first).addAll second :=
  List.foldl_append

theorem addCompoundWrite_eq (write other : FCompoundWrite K) (path : FPath K) :
    write.addCompoundWrite other path =
      write.addAll (other.writeTree.entries.map fun entry => (path ++ entry.1, entry.2)) := by
  unfold addCompoundWrite addAll
  rw [FImmutableTree.forEach_eq, List.foldl_map]

theorem Canonical.addAll {write : FCompoundWrite K} (canonical : write.Canonical)
    {writes : List (FPath K × FNode K)} (wf : ∀ entry ∈ writes, entry.2.WellFormed) :
    (write.addAll writes).Canonical := by
  induction writes generalizing write with
  | nil => exact canonical
  | cons entry rest ih =>
      exact ih (canonical.addWrite (wf entry List.mem_cons_self) entry.1)
        fun later member => wf later (List.mem_cons_of_mem _ member)

/-- A compound write holds nodes only at paths that were written. -/
theorem Canonical.exists_of_addWrite {write : FCompoundWrite K} (canonical : write.Canonical)
    {node held : FNode K} {path query : FPath K}
    (there : (write.addWrite node path).nodeAt query = some held) :
    query = path ∨ ∃ old, write.nodeAt query = some old := by
  rcases write.merged_or_free path with ⟨found, rest, value, rfl, old⟩ | free
  · rw [canonical.nodeAt_addWrite_merged old] at there
    split at there
    · next same => exact .inr ⟨value, same ▸ old⟩
    · exact .inr ⟨held, there⟩
  · rw [nodeAt_addWrite_free free] at there
    split at there
    · split at there
      · next same => exact .inl same
      · cases there
    · exact .inr ⟨held, there⟩

theorem Canonical.exists_of_addAll {write : FCompoundWrite K} (canonical : write.Canonical)
    {writes : List (FPath K × FNode K)} (wf : ∀ entry ∈ writes, entry.2.WellFormed)
    {held : FNode K} {query : FPath K} (there : (write.addAll writes).nodeAt query = some held) :
    (∃ entry ∈ writes, entry.1 = query) ∨ ∃ old, write.nodeAt query = some old := by
  induction writes generalizing write with
  | nil => exact .inr ⟨held, there⟩
  | cons entry rest ih =>
      have added := canonical.addWrite (wf entry List.mem_cons_self) entry.1
      rcases ih added (fun later member => wf later (List.mem_cons_of_mem _ member)) there with
        ⟨later, member, same⟩ | ⟨old, oldThere⟩
      · exact .inl ⟨later, List.mem_cons_of_mem _ member, same⟩
      · rcases canonical.exists_of_addWrite oldThere with same | older
        · exact .inl ⟨entry, List.mem_cons_self, same.symm⟩
        · exact .inr older

theorem Canonical.applyToNode_addAll {write : FCompoundWrite K} (canonical : write.Canonical)
    {base : FNode K} (baseWf : base.WellFormed) {writes : List (FPath K × FNode K)}
    (wf : ∀ entry ∈ writes, entry.2.WellFormed)
    (clear : ∀ entry ∈ writes, entry.2.isEmpty = true → ¬ base.BelowLeaf entry.1) :
    (write.addAll writes).applyToNode base =
      writes.foldl (fun node entry => node.updateChild entry.1 entry.2)
        (write.applyToNode base) := by
  induction writes generalizing write with
  | nil => rfl
  | cons entry rest ih =>
      have entryWf := wf entry List.mem_cons_self
      rw [List.foldl_cons, ← canonical.applyToNode_addWrite entryWf baseWf
        (clear entry List.mem_cons_self)]
      exact ih (canonical.addWrite entryWf entry.1)
        (fun later member => wf later (List.mem_cons_of_mem _ member))
        fun later member => clear later (List.mem_cons_of_mem _ member)

omit [StringComparator K] in
theorem applyToNode_emptyWrite (node : FNode K) : emptyWrite.applyToNode node = node := rfl

/-! ## The part below a path -/

omit [StringComparator K] in
theorem nodeAt_initWithValue (node : FNode K) (path : FPath K) :
    (⟨.initWithValue node⟩ : FCompoundWrite K).nodeAt path =
      if path = [] then some node else none :=
  FImmutableTree.valueAtPath_initWithValue node path

theorem canonical_initWithValue {node : FNode K} (wf : node.WellFormed) :
    (⟨.initWithValue node⟩ : FCompoundWrite K).Canonical where
  tree := FImmutableTree.initWithValue_wellFormed node
  nodes := by
    intro path held there
    rw [nodeAt_initWithValue] at there
    split at there
    · cases there
      exact wf
    · cases there
  terminal := by
    intro path below held other there further onPath
    rw [nodeAt_initWithValue] at there further
    split at further
    · next root => exact root ▸ List.prefix_nil.mp (root ▸ onPath)
    · cases further

theorem Canonical.child_of_complete {write : FCompoundWrite K} (canonical : write.Canonical)
    {path : FPath K} {node : FNode K} (complete : write.completeNodeAtPath path = some node)
    (query : FPath K) :
    (write.childCompoundWriteAtPath path).nodeAt query = if query = [] then some node else none := by
  unfold FCompoundWrite.childCompoundWriteAtPath
  split
  · next root =>
      obtain rfl := List.isEmpty_iff.mp root
      obtain ⟨found, rest, value, split, held, read⟩ :=
        canonical.completeNodeAtPath_eq_some.mp complete
      obtain ⟨rfl, rfl⟩ := List.append_eq_nil_iff.mp split.symm
      rw [FNode.getChild_nil] at read
      subst read
      split
      · next top => rw [top, held]
      · next below =>
          cases other : write.nodeAt query with
          | none => rfl
          | some node =>
              exact absurd (canonical.terminal _ _ _ _ held other List.nil_prefix) (Ne.symm below)
  · simp only [complete]
    exact nodeAt_initWithValue node query

omit [StringComparator K] in
theorem child_of_free {write : FCompoundWrite K} {path : FPath K}
    (free : write.completeNodeAtPath path = none) (query : FPath K) :
    (write.childCompoundWriteAtPath path).nodeAt query = write.nodeAt (path ++ query) := by
  unfold childCompoundWriteAtPath
  split
  · next root => rw [List.isEmpty_iff.mp root, List.nil_append]
  · simp only [free]
    exact FImmutableTree.valueAtPath_subtreeAtPath write.writeTree path query

theorem Canonical.childCompoundWriteAtPath {write : FCompoundWrite K} (canonical : write.Canonical)
    (path : FPath K) : (write.childCompoundWriteAtPath path).Canonical := by
  cases complete : write.completeNodeAtPath path with
  | some node =>
      unfold FCompoundWrite.childCompoundWriteAtPath
      split
      · exact canonical
      · simp only [complete]
        exact canonical_initWithValue (canonical.completeNodeAtPath_wellFormed complete)
  | none =>
      have lookup := child_of_free complete
      refine ⟨?_, fun query node there => canonical.nodes (path ++ query) node (lookup query ▸ there),
        fun query below node other there further onPath => ?_⟩
      · unfold FCompoundWrite.childCompoundWriteAtPath
        split
        · exact canonical.tree
        · simp only [complete]
          exact canonical.tree.subtreeAtPath path
      · rw [lookup] at there further
        exact List.append_cancel_left (canonical.terminal _ _ _ _ there further
          ((List.prefix_append_right_inj path).mpr onPath))

/-- Applying the part below a path to what a node has there shows what applying the
whole write shows there. -/
theorem Canonical.applyToNode_getChild {write : FCompoundWrite K} (canonical : write.Canonical)
    {node : FNode K} (wf : node.WellFormed) (path : FPath K) :
    (write.childCompoundWriteAtPath path).applyToNode (node.getChild path) =
      (write.applyToNode node).getChild path := by
  have child := canonical.childCompoundWriteAtPath path
  refine (child.applyToNode_wellFormed (wf.getChild path)).ext
    ((canonical.applyToNode_wellFormed wf).getChild path) fun query => ?_
  rw [FNode.leafAt_getChild]
  cases complete : write.completeNodeAtPath path with
  | some covering =>
      have lookup := canonical.child_of_complete complete []
      rw [if_pos rfl] at lookup
      obtain ⟨found, rest, value, rfl, held, rfl⟩ := canonical.completeNodeAtPath_eq_some.mp complete
      have shown := child.leafAt_applyToNode_below lookup (node.getChild (found ++ rest)) query
      rw [List.nil_append] at shown
      rw [shown, List.append_assoc, canonical.leafAt_applyToNode_below held, FNode.leafAt_getChild]
  | none =>
      have lookup := child_of_free complete
      rw [completeNodeAtPath_eq_none] at complete
      rcases (write.childCompoundWriteAtPath path).merged_or_free query with
        ⟨found, rest, value, rfl, held⟩ | free
      · rw [child.leafAt_applyToNode_below held]
        rw [lookup] at held
        rw [← List.append_assoc, canonical.leafAt_applyToNode_below held]
      · have wholeFree : ∀ above, above <+: path ++ query → write.nodeAt above = none := by
          intro above onPath
          rcases List.prefix_or_prefix_of_prefix onPath (List.prefix_append path query) with
            outside | ⟨inside, rfl⟩
          · exact complete above outside
          · rw [← lookup]
            exact free inside ((List.prefix_append_right_inj path).mp onPath)
        by_cases bare : ∀ below value, (write.childCompoundWriteAtPath path).nodeAt below =
            some value → query <+: below → value.isEmpty = true
        · rw [child.leafAt_applyToNode_free free bare, FNode.leafAt_getChild,
            canonical.leafAt_applyToNode_free wholeFree]
          intro below value held above
          obtain ⟨inside, rfl⟩ := (List.prefix_append path query).trans above
          rw [← lookup] at held
          exact bare inside value held ((List.prefix_append_right_inj path).mp above)
        · push Not at bare
          obtain ⟨below, value, held, above, full⟩ := bare
          have full : value.isEmpty = false := by simpa using full
          have apart : query ≠ below := by
            rintro rfl
            rw [free query (List.prefix_refl _)] at held
            cases held
          have wholeHeld := held
          rw [lookup] at wholeHeld
          rw [child.leafAt_applyToNode_above held full above apart,
            canonical.leafAt_applyToNode_above wholeHeld full
              ((List.prefix_append_right_inj path).mpr above)
              fun same => apart (List.append_cancel_left same)]

theorem Canonical.getChild_applyToNode {write : FCompoundWrite K} (canonical : write.Canonical)
    {base node : FNode K} (wf : base.WellFormed) {path : FPath K}
    (complete : write.completeNodeAtPath path = some node) :
    (write.applyToNode base).getChild path = node := by
  refine ((canonical.applyToNode_wellFormed wf).getChild path).ext
    (canonical.completeNodeAtPath_wellFormed complete) fun below => ?_
  obtain ⟨found, rest, value, rfl, held, rfl⟩ := canonical.completeNodeAtPath_eq_some.mp complete
  rw [FNode.leafAt_getChild, FNode.leafAt_getChild, List.append_assoc,
    canonical.leafAt_applyToNode_below held]

end PicksOnMap.Source.FCompoundWrite
