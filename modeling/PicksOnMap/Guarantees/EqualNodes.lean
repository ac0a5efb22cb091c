import PicksOnMap.Guarantees.WrittenNodes
import PicksOnMap.Source.ViewProcessor

/-!
# Equal nodes

Source pin: Pods/FirebaseDatabase, FLeafNode.m:139-151; FChildrenNode.m:279-307;
FIndexedFilter.m:40-93.

`isEqual` compares leaf by leaf, with the numbers compared as `NSNumber` does. The
filter leaves a child alone whose affected part is equal, so a cache is known up to
this relation only.
-/
namespace PicksOnMap.Source

open Support Support.SortedEntries

variable {K : Type} [LinearOrder K]

variable {numbers : NumberEquality}

theorem FValue.isEqual_refl (numbers : NumberEquality) (value : FValue) :
    value.isEqual numbers value = true := by
  cases value with
  | string s => simp [FValue.isEqual]
  | number d => exact numbers.refl d

theorem FValue.isEqual_symm {left right : FValue} (equal : left.isEqual numbers right = true) :
    right.isEqual numbers left = true := by
  cases left <;> cases right <;> simp only [FValue.isEqual, decide_eq_true_eq] at equal ⊢
  · exact equal.symm
  · exact absurd equal Bool.false_ne_true
  · exact absurd equal Bool.false_ne_true
  · exact numbers.symm equal

theorem FValue.isEqual_trans {left middle right : FValue}
    (first : left.isEqual numbers middle = true) (second : middle.isEqual numbers right = true) :
    left.isEqual numbers right = true := by
  cases left <;> cases middle <;> cases right <;>
    simp only [FValue.isEqual, decide_eq_true_eq] at first second ⊢
  all_goals first
    | exact first.trans second
    | exact numbers.trans first second
    | exact absurd first Bool.false_ne_true
    | exact absurd second Bool.false_ne_true

/-- No leaf on either side, or two equal ones. -/
def SameLeaf (numbers : NumberEquality) : Option FValue → Option FValue → Prop
  | none, none => True
  | some left, some right => left.isEqual numbers right = true
  | _, _ => False

theorem SameLeaf.refl (numbers : NumberEquality) (leaf : Option FValue) :
    SameLeaf numbers leaf leaf := by
  cases leaf with
  | none => trivial
  | some value => exact value.isEqual_refl numbers

theorem SameLeaf.symm {left right : Option FValue} (same : SameLeaf numbers left right) :
    SameLeaf numbers right left := by
  cases left <;> cases right <;> simp only [SameLeaf] at same ⊢
  exact FValue.isEqual_symm same

theorem SameLeaf.trans {left middle right : Option FValue} (first : SameLeaf numbers left middle)
    (second : SameLeaf numbers middle right) : SameLeaf numbers left right := by
  cases left <;> cases middle <;> cases right <;> simp only [SameLeaf] at first second ⊢
  exact FValue.isEqual_trans first second

theorem SameLeaf.none_iff {left right : Option FValue} (same : SameLeaf numbers left right) :
    left = none ↔ right = none := by
  cases left <;> cases right <;> simp_all [SameLeaf]

namespace FNode

def Same (numbers : NumberEquality) (left right : FNode K) : Prop :=
  ∀ path, SameLeaf numbers (left.leafAt path) (right.leafAt path)

theorem Same.refl (numbers : NumberEquality) (node : FNode K) : Same numbers node node :=
  fun _ => SameLeaf.refl numbers _

theorem Same.symm {left right : FNode K} (same : Same numbers left right) :
    Same numbers right left := fun path => (same path).symm

theorem Same.trans {left middle right : FNode K} (first : Same numbers left middle)
    (second : Same numbers middle right) : Same numbers left right :=
  fun path => (first path).trans (second path)

theorem Same.getImmediateChild {left right : FNode K} (same : Same numbers left right) (key : K) :
    Same numbers (left.getImmediateChild key) (right.getImmediateChild key) := by
  intro below
  rw [← leafAt_cons, ← leafAt_cons]
  exact same (key :: below)

theorem Same.isEmpty {left right : FNode K} (same : Same numbers left right)
    (leftWf : left.WellFormed) (rightWf : right.WellFormed) : left.isEmpty = right.isEmpty := by
  rw [Bool.eq_iff_iff, leftWf.isEmpty_iff, rightWf.isEmpty_iff]
  exact forall_congr' fun path => (same path).none_iff

/-- Equal on top and below every key. -/
theorem same_of_children {left right : FNode K}
    (top : SameLeaf numbers (left.leafAt []) (right.leafAt []))
    (below : ∀ key, Same numbers (left.getImmediateChild key) (right.getImmediateChild key)) :
    Same numbers left right := by
  intro path
  cases path with
  | nil => exact top
  | cons key rest =>
      rw [leafAt_cons, leafAt_cons]
      exact below key rest

/-! ## `isEqual` -/

theorem childrenEqual_iff (entries : List (K × FNode K)) (other : FNode K) :
    childrenEqual numbers entries other = true ↔
      ∀ entry ∈ entries, entry.2.isEqual numbers (other.getImmediateChild entry.1) = true := by
  induction entries with
  | nil => simp [childrenEqual]
  | cons entry rest ih => simp [childrenEqual, ih]

theorem hasKey_iff {entries : List (K × FNode K)} (wf : (FNode.children entries).WellFormed)
    (key : K) : key ∈ entries.map Prod.fst ↔
      ((FNode.children entries).getImmediateChild key).isEmpty = false := by
  have lookup := wf.get?_entries key
  obtain _ | @⟨_, sorted, pruned, each⟩ := wf
  constructor
  · intro member
    obtain ⟨entry, held, rfl⟩ := List.mem_map.mp member
    have found := (mem_iff_get? sorted entry.1 entry.2).mp held
    rw [found] at lookup
    by_contra full
    rw [if_pos (Bool.eq_true_of_not_eq_false full)] at lookup
    cases lookup
  · intro full
    rw [full] at lookup
    exact List.mem_map.mpr ⟨_, mem_of_get? lookup, rfl⟩

theorem nodup_keys {entries : List (K × FNode K)} (wf : (FNode.children entries).WellFormed) :
    (entries.map Prod.fst).Nodup := by
  obtain _ | @⟨_, sorted, pruned, each⟩ := wf
  exact List.pairwise_map.mpr (sorted.imp fun less => less.ne)

/-- The keys of equally many children, all of them found on the other side. -/
theorem sameKeys_of_length {entries others : List (K × FNode K)}
    (wf : (FNode.children entries).WellFormed) (count : entries.length = others.length)
    (found : ∀ key ∈ entries.map Prod.fst, key ∈ others.map Prod.fst) (key : K) :
    key ∈ others.map Prod.fst ↔ key ∈ entries.map Prod.fst := by
  have inside := List.subperm_of_subset (nodup_keys wf) found
  have perm := inside.perm_of_length_le (by simp [count])
  exact perm.symm.mem_iff

theorem isEqual_iff_same {left right : FNode K} (leftWf : left.WellFormed)
    (rightWf : right.WellFormed) : left.isEqual numbers right = true ↔ Same numbers left right := by
  induction leftWf generalizing right with
  | leaf value =>
      cases right with
      | leaf other =>
          have apart : ∀ path : FPath K, path ≠ [] →
              SameLeaf numbers ((FNode.leaf value).leafAt path) ((FNode.leaf other).leafAt path) := by
            intro path nonempty
            rw [leafAt_leaf, leafAt_leaf, if_neg nonempty, if_neg nonempty]
            trivial
          constructor
          · intro equal path
            by_cases root : path = []
            · subst root
              exact FValue.isEqual_symm equal
            · exact apart path root
          · intro same
            exact FValue.isEqual_symm (same [])
      | children others =>
          refine iff_of_false Bool.false_ne_true fun same => ?_
          exact (same []).elim
  | @children entries sorted pruned each ih =>
      have wf : (FNode.children entries).WellFormed := .children sorted pruned each
      cases right with
      | leaf other =>
          refine iff_of_false Bool.false_ne_true fun same => ?_
          exact (same []).elim
      | children others =>
          have child : ∀ entry ∈ entries,
              (FNode.children entries).getImmediateChild entry.1 = entry.2 := by
            intro entry member
            simp [FNode.getImmediateChild, (mem_iff_get? sorted entry.1 entry.2).mp member]
          simp only [isEqual, Bool.and_eq_true, beq_iff_eq, childrenEqual_iff]
          constructor
          · rintro ⟨count, equal⟩
            have below : ∀ key ∈ entries.map Prod.fst,
                Same numbers ((FNode.children entries).getImmediateChild key)
                  ((FNode.children others).getImmediateChild key) := by
              intro key member
              obtain ⟨entry, held, rfl⟩ := List.mem_map.mp member
              rw [child entry held]
              exact (ih entry held (rightWf.getImmediateChild entry.1)).mp (equal entry held)
            have found : ∀ key ∈ entries.map Prod.fst, key ∈ others.map Prod.fst := by
              intro key member
              rw [hasKey_iff rightWf, ← (below key member).isEmpty (wf.getImmediateChild key)
                (rightWf.getImmediateChild key)]
              exact (hasKey_iff wf key).mp member
            refine same_of_children trivial fun key => ?_
            by_cases member : key ∈ entries.map Prod.fst
            · exact below key member
            · have absent := (sameKeys_of_length wf count found key).not.mpr member
              rw [hasKey_iff wf] at member
              rw [hasKey_iff rightWf] at absent
              rw [eq_emptyNode_of_isEmpty (Bool.eq_true_of_not_eq_false member),
                eq_emptyNode_of_isEmpty (Bool.eq_true_of_not_eq_false absent)]
              exact Same.refl numbers _
          · intro same
            have keys : ∀ key, key ∈ entries.map Prod.fst ↔ key ∈ others.map Prod.fst := by
              intro key
              rw [hasKey_iff wf, hasKey_iff rightWf, (same.getImmediateChild key).isEmpty
                (wf.getImmediateChild key) (rightWf.getImmediateChild key)]
            refine ⟨?_, fun entry member => ?_⟩
            · have perm := (List.perm_ext_iff_of_nodup (nodup_keys wf) (nodup_keys rightWf)).mpr keys
              simpa using perm.length_eq
            · have equal := same.getImmediateChild entry.1
              rw [child entry member] at equal
              exact (ih entry member (rightWf.getImmediateChild entry.1)).mpr equal

/-! ## Updates -/

theorem updateChild_cons (node : FNode K) (key : K) (rest : FPath K) (new : FNode K) :
    node.updateChild (key :: rest) new =
      node.updateImmediateChild key ((node.getImmediateChild key).updateChild rest new) := by
  cases node with
  | leaf value =>
      by_cases empty : new.isEmpty = true
      · have bare := updateChild_emptyNode_of_isEmpty rest empty
        simp [FNode.updateChild, FNode.updateImmediateChild, FNode.getImmediateChild, empty, bare]
      · simp [FNode.updateChild, FNode.getImmediateChild, empty]
  | children entries => rfl

theorem updateChild_single (node : FNode K) (key : K) (new : FNode K) :
    node.updateChild [key] new = node.updateImmediateChild key new := by
  rw [updateChild_cons]
  cases node.getImmediateChild key <;> rfl

theorem Same.updateChild {left right : FNode K} (same : Same numbers left right) (path : FPath K)
    (new : FNode K) : Same numbers (left.updateChild path new) (right.updateChild path new) := by
  intro query
  rw [leafAt_updateChild, leafAt_updateChild]
  by_cases touched : (writeOf path new).Touches query
  · rw [LeafMap.Write.apply_of_touches touched, LeafMap.Write.apply_of_touches touched]
    exact SameLeaf.refl numbers _
  · rw [LeafMap.Write.apply_of_not_touches touched, LeafMap.Write.apply_of_not_touches touched]
    exact same query

theorem writeOf_valueAt_append (path below : FPath K) (new : FNode K) :
    (writeOf path new).valueAt (path ++ below) = new.leafAt below := by
  by_cases empty : new.isEmpty = true
  · simp [LeafMap.Write.valueAt, writeOf, eq_emptyNode_of_isEmpty empty, leafAt_emptyNode]
  · simp [LeafMap.Write.valueAt, writeOf, empty]

/-- Above a node that is not empty there is no leaf. -/
theorem leafAt_above_of_full {node : FNode K} (wf : node.WellFormed) {path above : FPath K}
    (full : (node.getChild path).isEmpty = false) (onPath : above <+: path)
    (apart : above ≠ path) : node.leafAt above = none := by
  obtain ⟨below, value, held⟩ := (wf.getChild path).exists_leaf full
  rw [leafAt_getChild] at held
  cases there : node.leafAt above with
  | none => rfl
  | some other =>
      have nothing := leafAt_below_leaf there (onPath.trans (List.prefix_append path below))
        (fun same => apart (onPath.eq_of_length_le (by simp [same])))
      rw [nothing] at held
      cases held

/-- A node with an equal part put in is an equal node. -/
theorem same_updateChild {node new : FNode K} (wf : node.WellFormed) (newWf : new.WellFormed)
    {path : FPath K} (same : Same numbers (node.getChild path) new) :
    Same numbers node (node.updateChild path new) := by
  intro query
  rw [leafAt_updateChild]
  by_cases touched : (writeOf path new).Touches query
  · rw [LeafMap.Write.apply_of_touches touched]
    rcases touched with ⟨below, rfl⟩ | ⟨puts, above⟩
    · have part := same below
      rw [leafAt_getChild] at part
      rwa [show (writeOf path new).path = path from rfl, writeOf_valueAt_append]
    · by_cases here : query = path
      · subst here
        have part := same []
        rw [leafAt_getChild, List.append_nil] at part
        have value := writeOf_valueAt_append query [] new
        rw [List.append_nil] at value
        rwa [value]
      · have notBelow : ¬ path <+: query := fun under =>
          here (above.eq_of_length_le under.length_le)
        have full : (node.getChild path).isEmpty = false := by
          rw [same.isEmpty (wf.getChild path) newWf]
          simpa [writeOf] using puts
        rw [LeafMap.Write.valueAt_of_not_below notBelow, leafAt_above_of_full wf full above here]
        trivial
  · rw [LeafMap.Write.apply_of_not_touches touched]
    exact SameLeaf.refl numbers _

/-- Two nodes that agree apart from a path are the same once the part at the path has
been carried over. Above the path they must agree where the part is empty. -/
theorem updateChild_getChild_eq {left right : FNode K} (leftWf : left.WellFormed)
    (rightWf : right.WellFormed) {path : FPath K}
    (apart : ∀ query, ¬ LeafMap.Comparable path query → left.leafAt query = right.leafAt query)
    (above : (right.getChild path).isEmpty = true → ∀ query, query <+: path → query ≠ path →
      left.leafAt query = right.leafAt query) :
    left.updateChild path (right.getChild path) = right := by
  refine (leftWf.updateChild (rightWf.getChild path) path).ext rightWf fun query => ?_
  rw [leafAt_updateChild]
  by_cases under : path <+: query
  · obtain ⟨below, rfl⟩ := under
    rw [LeafMap.Write.apply_of_touches (.inl (List.prefix_append path below)),
      writeOf_valueAt_append, leafAt_getChild]
  · by_cases onPath : query <+: path
    · have strict : query ≠ path := fun same => under (same ▸ List.prefix_refl _)
      cases empty : (right.getChild path).isEmpty with
      | true =>
          rw [LeafMap.Write.apply_of_not_touches]
          · exact above empty query onPath strict
          · simp [LeafMap.Write.Touches, writeOf, empty, under]
      | false =>
          rw [LeafMap.Write.apply_of_touches (.inr ⟨by simp [writeOf, empty], onPath⟩),
            LeafMap.Write.valueAt_of_not_below under,
            leafAt_above_of_full rightWf empty onPath strict]
    · have separate : ¬ LeafMap.Comparable path query := fun near => near.elim under onPath
      rw [LeafMap.Write.apply_of_not_touches fun touched => separate touched.comparable]
      exact apart query separate

end FNode

/-! ## The filter -/

namespace FIndexedFilter

variable {node new : FNode K}

/-- The filter's test for a child that did not change. -/
def Unchanged (numbers : NumberEquality) (node : FNode K) (key : K) (new : FNode K)
    (affected : FPath K) : Prop :=
  FNode.Same numbers ((node.getImmediateChild key).getChild affected) (new.getChild affected) ∧
    (node.getImmediateChild key).isEmpty = new.isEmpty

theorem updateChildIn_of_unchanged (wf : node.WellFormed) (newWf : new.WellFormed) {key : K}
    {affected : FPath K} (unchanged : Unchanged numbers node key new affected) :
    updateChildIn numbers node key new affected = (node, []) := by
  have equal := (FNode.isEqual_iff_same ((wf.getImmediateChild key).getChild affected)
    (newWf.getChild affected)).mpr unchanged.1
  unfold updateChildIn
  simp [equal, unchanged.2]

theorem updateChildIn_of_changed (wf : node.WellFormed) (newWf : new.WellFormed) {key : K}
    {affected : FPath K} (changed : ¬ Unchanged numbers node key new affected) :
    (updateChildIn numbers node key new affected).1 = node.updateImmediateChild key new := by
  have differs : ((FNode.isEqual numbers ((node.getImmediateChild key).getChild affected)
      (new.getChild affected)) && (node.getImmediateChild key).isEmpty == new.isEmpty) = false := by
    rw [← Bool.not_eq_true, Bool.and_eq_true, beq_iff_eq,
      FNode.isEqual_iff_same ((wf.getImmediateChild key).getChild affected)
        (newWf.getChild affected)]
    exact changed
  unfold updateChildIn
  simp only [differs, Bool.false_eq_true, ↓reduceIte]
  split
  · next leaf =>
      cases node with
      | leaf value =>
          have empty : new.isEmpty = true := by simpa [FNode.isLeafNode] using leaf
          simp [FNode.updateImmediateChild, empty]
      | children entries => simp [FNode.isLeafNode] at leaf
  · rfl

theorem updateChildIn_wellFormed (wf : node.WellFormed) (newWf : new.WellFormed) (key : K)
    (affected : FPath K) : (updateChildIn numbers node key new affected).1.WellFormed := by
  by_cases unchanged : Unchanged numbers node key new affected
  · rw [updateChildIn_of_unchanged wf newWf unchanged]
    exact wf
  · rw [updateChildIn_of_changed wf newWf unchanged]
    exact wf.updateImmediateChild newWf key

/-- The filter puts the child in, up to equality, when its test does not miss a change. -/
theorem same_updateChildIn (wf : node.WellFormed) (newWf : new.WellFormed) {key : K}
    {affected : FPath K}
    (sees : Unchanged numbers node key new affected →
      FNode.Same numbers (node.getImmediateChild key) new) :
    FNode.Same numbers (updateChildIn numbers node key new affected).1
      (node.updateChild [key] new) := by
  by_cases unchanged : Unchanged numbers node key new affected
  · rw [updateChildIn_of_unchanged wf newWf unchanged]
    refine FNode.same_updateChild wf newWf ?_
    rw [FNode.getChild_cons, FNode.getChild_nil]
    exact sees unchanged
  · rw [updateChildIn_of_changed wf newWf unchanged, FNode.updateChild_single]
    exact FNode.Same.refl numbers _

/-- A child updated at the affected path is put in. -/
theorem same_updateChildIn_updated (wf : node.WellFormed) (newWf : new.WellFormed) (key : K)
    (rest : FPath K) :
    FNode.Same numbers
      (updateChildIn numbers node key ((node.getImmediateChild key).updateChild rest new) rest).1
      (node.updateChild (key :: rest) new) := by
  have childWf := wf.getImmediateChild key
  rw [FNode.updateChild_cons, ← FNode.updateChild_single]
  refine same_updateChildIn wf (childWf.updateChild newWf rest) fun unchanged => ?_
  refine FNode.same_updateChild childWf newWf ?_
  have part := unchanged.1
  rwa [FNode.getChild_updateChild_self] at part

end FIndexedFilter

end PicksOnMap.Source
