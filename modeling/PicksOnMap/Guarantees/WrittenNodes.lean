import PicksOnMap.Source.DatabaseNode

/-!
# Nodes are fixed by their leaves

A well-formed node is the only one with its leaves, so what an update does to a
node can be argued leaf by leaf. Reading a path back from an updated node needs
no well-formedness.
-/
namespace PicksOnMap.Source.FNode

open Support Support.SortedEntries

variable {K : Type} [LinearOrder K]

theorem getChild_append (node : FNode K) (path below : FPath K) :
    node.getChild (path ++ below) = (node.getChild path).getChild below := by
  induction path generalizing node with
  | nil => cases node <;> rfl
  | cons front rest ih => rw [List.cons_append, getChild_cons, getChild_cons, ih]

@[simp] theorem getChild_nil (node : FNode K) : node.getChild [] = node := by
  cases node <;> rfl

theorem leafAt_getChild (node : FNode K) (path below : FPath K) :
    (node.getChild path).leafAt below = node.leafAt (path ++ below) := by
  unfold leafAt
  rw [getChild_append]

/-- Nothing lies below a leaf. -/
theorem leafAt_below_leaf {node : FNode K} {path query : FPath K} {value : FValue}
    (held : node.leafAt path = some value) (below : path <+: query) (apart : path ≠ query) :
    node.leafAt query = none := by
  obtain ⟨rest, rfl⟩ := below
  have nonempty : rest ≠ [] := by
    rintro rfl
    simp at apart
  rw [← leafAt_getChild]
  unfold leafAt at held
  cases reached : node.getChild path with
  | leaf held => simp [leafAt_leaf, nonempty]
  | children entries => simp [reached] at held

/-- The path runs through a leaf and on. -/
def BelowLeaf (node : FNode K) (path : FPath K) : Prop :=
  ∃ above value, above <+: path ∧ above ≠ path ∧ node.leafAt above = some value

theorem leafAt_above_of_not_belowLeaf {node : FNode K} {path above : FPath K}
    (clear : ¬ node.BelowLeaf path) (onPath : above <+: path) (apart : above ≠ path) :
    node.leafAt above = none := by
  cases held : node.leafAt above with
  | none => rfl
  | some value => exact absurd ⟨above, value, onPath, apart, held⟩ clear

/-- No child of a node with children lies below a leaf. -/
theorem not_belowLeaf_child (entries : List (K × FNode K)) (key : K) :
    ¬ (FNode.children entries).BelowLeaf [key] := by
  rintro ⟨above, value, onPath, apart, held⟩
  have short : above.length < 1 := by
    have atMost := onPath.length_le
    have different : above.length ≠ 1 := fun same => apart (onPath.eq_of_length same)
    simp only [List.length_singleton] at atMost
    omega
  have root : above = [] := List.eq_nil_of_length_eq_zero (by omega)
  subst root
  cases held

theorem getChild_updateChild_append (node new : FNode K) (path below : FPath K) :
    (node.updateChild (path ++ below) new).getChild path =
      (node.getChild path).updateChild below new := by
  induction path generalizing node with
  | nil => simp
  | cons front rest ih =>
      rw [List.cons_append, getChild_cons, getImmediateChild_updateChild, if_pos rfl, ih,
        getChild_cons]

theorem getChild_updateChild_self (node new : FNode K) (path : FPath K) :
    (node.updateChild path new).getChild path = new := by
  have read := getChild_updateChild_append node new path []
  rw [List.append_nil] at read
  rw [read]
  cases node.getChild path <;> rfl

theorem getChild_updateChild_below (node new : FNode K) (path below : FPath K) :
    (node.updateChild path new).getChild (path ++ below) = new.getChild below := by
  rw [getChild_append, getChild_updateChild_self]

theorem getChild_updateChild_apart (node new : FNode K) {path query : FPath K}
    (apart : ¬ LeafMap.Comparable path query) :
    (node.updateChild path new).getChild query = node.getChild query := by
  induction path generalizing node query with
  | nil => exact absurd (.inl List.nil_prefix) apart
  | cons front rest ih =>
      cases query with
      | nil => exact absurd (.inr List.nil_prefix) apart
      | cons key below =>
          rw [getChild_cons, getImmediateChild_updateChild, getChild_cons]
          by_cases same : key = front
          · subst same
            rw [if_pos rfl]
            refine ih _ fun near => apart ?_
            exact near.imp (fun under => List.cons_prefix_cons.mpr ⟨rfl, under⟩)
              (fun above => List.cons_prefix_cons.mpr ⟨rfl, above⟩)
          · rw [if_neg same]

/-! ## Extensionality -/

theorem WellFormed.exists_leaf {node : FNode K} (wf : node.WellFormed)
    (full : node.isEmpty = false) : ∃ path value, node.leafAt path = some value := by
  induction wf with
  | leaf value => exact ⟨[], value, rfl⟩
  | @children entries sorted pruned each ih =>
      cases entries with
      | nil => cases full
      | cons entry rest =>
          have member : entry ∈ entry :: rest := List.mem_cons_self
          obtain ⟨path, value, found⟩ := ih entry member (pruned entry member)
          refine ⟨entry.1 :: path, value, ?_⟩
          rw [leafAt_cons]
          simpa [FNode.getImmediateChild, get?] using found

theorem WellFormed.isEmpty_iff {node : FNode K} (wf : node.WellFormed) :
    node.isEmpty = true ↔ ∀ path, node.leafAt path = none := by
  constructor
  · intro empty path
    rw [eq_emptyNode_of_isEmpty empty, leafAt_emptyNode]
  · intro bare
    by_contra full
    obtain ⟨path, value, found⟩ := wf.exists_leaf (Bool.eq_false_of_not_eq_true full)
    rw [bare] at found
    cases found

theorem WellFormed.get?_entries {entries : List (K × FNode K)}
    (wf : (FNode.children entries).WellFormed) (key : K) :
    get? key entries =
      if ((FNode.children entries).getImmediateChild key).isEmpty then none
      else some ((FNode.children entries).getImmediateChild key) := by
  obtain _ | @⟨_, sorted, pruned, each⟩ := wf
  simp only [FNode.getImmediateChild]
  rcases Option.eq_none_or_eq_some (get? key entries) with held | ⟨child, held⟩
  · simp [held]
  · simp [held, pruned _ (mem_of_get? held)]

/-- Two well-formed nodes with the same leaves are the same node. -/
theorem WellFormed.ext {left right : FNode K} (leftWf : left.WellFormed)
    (rightWf : right.WellFormed) (same : ∀ path, left.leafAt path = right.leafAt path) :
    left = right := by
  induction leftWf generalizing right with
  | leaf value =>
      have top := same []
      cases right with
      | leaf other => simpa [leafAt_leaf] using top
      | children entries => simp [leafAt, FNode.getChild] at top
  | @children entries sorted pruned each ih =>
      have leftWf : (FNode.children entries).WellFormed := .children sorted pruned each
      cases right with
      | leaf other => simpa [leafAt, FNode.getChild] using same []
      | children others =>
          have below : ∀ key path, ((FNode.children entries).getImmediateChild key).leafAt path =
              ((FNode.children others).getImmediateChild key).leafAt path := by
            intro key path
            rw [← leafAt_cons, ← leafAt_cons]
            exact same (key :: path)
          have children_same : ∀ key, (FNode.children entries).getImmediateChild key =
              (FNode.children others).getImmediateChild key := by
            intro key
            have leaves := below key
            cases held : get? key entries with
            | none =>
                have absent : (FNode.children entries).getImmediateChild key = FNode.emptyNode := by
                  simp [FNode.getImmediateChild, held]
                rw [absent] at leaves ⊢
                have bare := (rightWf.getImmediateChild key).isEmpty_iff.mpr fun path => by
                  rw [← leaves, leafAt_emptyNode]
                exact (eq_emptyNode_of_isEmpty bare).symm
            | some child =>
                have present : (FNode.children entries).getImmediateChild key = child := by
                  simp [FNode.getImmediateChild, held]
                rw [present] at leaves ⊢
                exact ih _ (mem_of_get? held) (rightWf.getImmediateChild key) leaves
          have lookups : ∀ key, get? key entries = get? key others := by
            intro key
            have leftLookup := leftWf.get?_entries key
            rw [children_same] at leftLookup
            exact leftLookup.trans (rightWf.get?_entries key).symm
          have othersSorted : Sorted others := by
            cases rightWf
            assumption
          rw [ext_sorted sorted othersSorted lookups]

end PicksOnMap.Source.FNode
