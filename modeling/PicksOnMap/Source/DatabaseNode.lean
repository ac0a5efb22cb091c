import PicksOnMap.Source.DatabaseKey
import PicksOnMap.Support.LeafMap
import PicksOnMap.Support.SortedEntries
import Mathlib.Data.BitVec

/-!
# Database nodes

Source pin: Pods/FirebaseDatabase, FLeafNode.m:72-123,131-142;
FChildrenNode.m:90-225; FEmptyNode.m; FUtilities.m:257-270.

A node is a leaf value or its children in key order; the empty node is the one
without children. `K` stands for keys that the comparator of the children tells apart,
in its order; `ChildrenNode` has those that it does not. Priorities are left out: they
live under the child name `.priority`, which is not a key, and no write of the
application carries one.
-/
namespace PicksOnMap.Source

open Support Support.SortedEntries

/-- A `Double` by its IEEE-754 bit pattern. -/
structure Double where
  bits : BitVec 64
  deriving DecidableEq, Repr

def Double.isFinite (d : Double) : Bool := d.bits.extractLsb' 52 11 != 0x7ff#11

def Double.isNaN (d : Double) : Bool :=
  d.bits.extractLsb' 52 11 == 0x7ff#11 && d.bits.extractLsb' 0 52 != 0#52

theorem Double.isNaN_of_isFinite {d : Double} (finite : d.isFinite = true) : d.isNaN = false := by
  simp_all [Double.isFinite, Double.isNaN]

/-- The payload of a leaf: an `NSString` or an `NSNumber`. -/
inductive FValue where
  | string (s : String)
  | number (d : Double)
  deriving DecidableEq, Repr

inductive FNode (K : Type) where
  | leaf (value : FValue)
  | children (entries : List (K × FNode K))
  deriving Repr

namespace FNode

variable {K : Type}

def emptyNode : FNode K := .children []

def isEmpty : FNode K → Bool
  | .leaf _ => false
  | .children entries => entries.isEmpty

theorem eq_emptyNode_of_isEmpty {node : FNode K} (empty : node.isEmpty = true) :
    node = emptyNode := by
  cases node with
  | leaf value => cases empty
  | children entries => rw [List.isEmpty_iff.mp empty]; rfl

@[simp] theorem isEmpty_emptyNode : (emptyNode : FNode K).isEmpty = true := rfl

variable [LinearOrder K]

def getImmediateChild : FNode K → K → FNode K
  | .leaf _, _ => emptyNode
  | .children entries, childName => (get? childName entries).getD emptyNode

def getChild : FNode K → FPath K → FNode K
  | node, [] => node
  | .leaf _, _ :: _ => emptyNode
  | .children entries, front :: rest =>
      ((FNode.children entries).getImmediateChild front).getChild rest

/-- A leaf that gains a child becomes an inner node. Children that all went away
are the empty node, so the source's two `isEmpty` returns need no branch. -/
def updateImmediateChild : FNode K → K → FNode K → FNode K
  | .leaf value, childName, newChildNode =>
      if newChildNode.isEmpty then .leaf value
      else .children (put childName newChildNode [])
  | .children entries, childName, newChildNode =>
      if newChildNode.isEmpty then .children (remove childName entries)
      else .children (put childName newChildNode entries)

def updateChild : FNode K → FPath K → FNode K → FNode K
  | _, [], newChildNode => newChildNode
  | .leaf value, front :: rest, newChildNode =>
      if newChildNode.isEmpty then .leaf value
      else (FNode.leaf value).updateImmediateChild front
        (emptyNode.updateChild rest newChildNode)
  | .children entries, front :: rest, newChildNode =>
      (FNode.children entries).updateImmediateChild front
        (((FNode.children entries).getImmediateChild front).updateChild rest newChildNode)

/-- Children are sorted and none of them is empty, at every depth. -/
inductive WellFormed : FNode K → Prop
  | leaf (value : FValue) : WellFormed (.leaf value)
  | children {entries : List (K × FNode K)} (sorted : Sorted entries)
      (pruned : ∀ entry ∈ entries, entry.2.isEmpty = false)
      (each : ∀ entry ∈ entries, WellFormed entry.2) : WellFormed (.children entries)

/-- The node seen from outside: its leaves. -/
def leafAt (node : FNode K) : LeafMap K FValue := fun path =>
  match node.getChild path with
  | .leaf value => some value
  | .children _ => none

theorem getChild_emptyNode (path : FPath K) :
    (emptyNode : FNode K).getChild path = emptyNode := by
  induction path with
  | nil => rfl
  | cons front rest ih => exact ih

theorem getChild_cons (node : FNode K) (front : K) (rest : FPath K) :
    node.getChild (front :: rest) = (node.getImmediateChild front).getChild rest := by
  cases node with
  | leaf value => exact (getChild_emptyNode rest).symm
  | children entries => rfl

theorem updateChild_emptyNode_of_isEmpty (path : FPath K) {new : FNode K}
    (empty : new.isEmpty = true) : emptyNode.updateChild path new = emptyNode := by
  induction path with
  | nil => exact eq_emptyNode_of_isEmpty empty
  | cons front rest ih =>
      change (FNode.children []).updateImmediateChild front (emptyNode.updateChild rest new) = _
      rw [ih]
      rfl

theorem isEmpty_updateImmediateChild (node : FNode K) (name : K) {new : FNode K}
    (full : new.isEmpty = false) : (node.updateImmediateChild name new).isEmpty = false := by
  have inserted : ∀ entries : List (K × FNode K), (put name new entries).isEmpty = false := by
    intro entries
    cases entries with
    | nil => rfl
    | cons entry rest =>
        simp only [put]
        split
        · rfl
        · split <;> rfl
  cases node <;> simp only [updateImmediateChild, full, Bool.false_eq_true, ↓reduceIte]
  · exact inserted []
  · exact inserted _

/-- Putting a node that is not empty never ends in an empty tree. -/
theorem isEmpty_updateChild (node : FNode K) (path : FPath K) {new : FNode K}
    (full : new.isEmpty = false) : (node.updateChild path new).isEmpty = false := by
  induction path generalizing node with
  | nil => exact full
  | cons front rest ih =>
      cases node with
      | leaf value =>
          simp only [updateChild, full, Bool.false_eq_true, ↓reduceIte]
          exact isEmpty_updateImmediateChild _ _ (ih _)
      | children entries => exact isEmpty_updateImmediateChild _ _ (ih _)

theorem getImmediateChild_updateImmediateChild (node : FNode K) (name query : K) (new : FNode K) :
    (node.updateImmediateChild name new).getImmediateChild query =
      if query = name then new else node.getImmediateChild query := by
  by_cases empty : new.isEmpty = true
  · have hnew := eq_emptyNode_of_isEmpty empty
    cases node with
    | leaf value =>
        subst hnew
        simp [updateImmediateChild, getImmediateChild]
    | children entries =>
        simp only [updateImmediateChild, empty, ↓reduceIte, getImmediateChild, get?_remove]
        by_cases same : query = name
        · simp [same, hnew]
        · simp [same]
  · cases node with
    | leaf value =>
        by_cases same : query = name <;>
          simp [updateImmediateChild, getImmediateChild, get?_put, empty, same, get?]
    | children entries =>
        by_cases same : query = name <;>
          simp [updateImmediateChild, getImmediateChild, get?_put, empty, same]

theorem getImmediateChild_updateChild (node : FNode K) (front query : K) (rest : FPath K)
    (new : FNode K) :
    (node.updateChild (front :: rest) new).getImmediateChild query =
      if query = front then (node.getImmediateChild front).updateChild rest new
      else node.getImmediateChild query := by
  cases node with
  | leaf value =>
      by_cases empty : new.isEmpty = true
      · simp only [updateChild, empty, ↓reduceIte, getImmediateChild,
          updateChild_emptyNode_of_isEmpty rest empty, ite_self]
      · simp only [updateChild, empty, Bool.false_eq_true, ↓reduceIte]
        rw [getImmediateChild_updateImmediateChild]
        rfl
  | children entries => exact getImmediateChild_updateImmediateChild _ _ _ _

/-! ## Leaves -/

theorem leafAt_cons (node : FNode K) (front : K) (rest : FPath K) :
    node.leafAt (front :: rest) = (node.getImmediateChild front).leafAt rest := by
  simp only [leafAt, getChild_cons]

theorem leafAt_emptyNode (path : FPath K) : emptyNode.leafAt path = none := by
  simp only [leafAt, getChild_emptyNode]
  rfl

theorem leafAt_leaf (value : FValue) (path : FPath K) :
    (FNode.leaf value).leafAt path = if path = [] then some value else none := by
  cases path <;> rfl

/-- The write that `updateChild` performs, on leaves. -/
def writeOf (path : FPath K) (new : FNode K) : LeafMap.Write K FValue :=
  ⟨path, if new.isEmpty then none else some new.leafAt⟩

theorem writeOf_cons_touches (front query : K) (rest below : FPath K) (new : FNode K) :
    (writeOf (front :: rest) new).Touches (query :: below) ↔
      query = front ∧ (writeOf rest new).Touches below := by
  simp only [LeafMap.Write.Touches, writeOf, List.cons_prefix_cons]
  constructor
  · rintro (⟨rfl, under⟩ | ⟨full, rfl, above⟩)
    · exact ⟨rfl, .inl under⟩
    · exact ⟨rfl, .inr ⟨full, above⟩⟩
  · rintro ⟨rfl, under | ⟨full, above⟩⟩
    · exact .inl ⟨rfl, under⟩
    · exact .inr ⟨full, rfl, above⟩

theorem writeOf_cons_valueAt (front : K) (rest below : FPath K) (new : FNode K) :
    (writeOf (front :: rest) new).valueAt (front :: below) = (writeOf rest new).valueAt below := by
  by_cases under : rest <+: below <;> simp [LeafMap.Write.valueAt, writeOf, under]

/-- `updateChild` refines the abstract write: same leaves, on every path. -/
theorem leafAt_updateChild (node : FNode K) (path : FPath K) (new : FNode K) :
    (node.updateChild path new).leafAt = (writeOf path new).apply node.leafAt := by
  induction path generalizing node with
  | nil =>
      funext query
      rw [LeafMap.Write.apply_of_touches (.inl List.nil_prefix)]
      by_cases empty : new.isEmpty = true
      · simp [updateChild, LeafMap.Write.valueAt, writeOf, eq_emptyNode_of_isEmpty empty,
          leafAt_emptyNode]
      · simp [updateChild, LeafMap.Write.valueAt, writeOf, empty]
  | cons front rest ih =>
      funext query
      cases query with
      | nil =>
          have apart : ¬ (front :: rest) <+: ([] : FPath K) := by simp
          by_cases empty : new.isEmpty = true
          · rw [LeafMap.Write.apply_of_not_touches (by simp [LeafMap.Write.Touches, writeOf, empty])]
            cases node with
            | leaf value => simp [updateChild, empty]
            | children entries =>
                simp only [updateChild, updateImmediateChild]
                split <;> rfl
          · have full : new.isEmpty = false := by simpa using empty
            rw [LeafMap.Write.apply_of_touches
              (.inr ⟨by simp [writeOf, empty], List.nil_prefix⟩),
              LeafMap.Write.valueAt_of_not_below apart]
            cases node with
            | leaf value =>
                simp [updateChild, updateImmediateChild, full,
                  isEmpty_updateChild emptyNode rest full, leafAt, getChild]
            | children entries =>
                simp [updateChild, updateImmediateChild,
                  isEmpty_updateChild _ rest full, leafAt, getChild]
      | cons key below =>
          rw [leafAt_cons, getImmediateChild_updateChild]
          by_cases same : key = front
          · subst same
            rw [if_pos rfl, ih]
            by_cases touched : (writeOf rest new).Touches below
            · rw [LeafMap.Write.apply_of_touches touched,
                LeafMap.Write.apply_of_touches
                  ((writeOf_cons_touches _ _ _ _ _).mpr ⟨rfl, touched⟩),
                writeOf_cons_valueAt]
            · rw [LeafMap.Write.apply_of_not_touches touched,
                LeafMap.Write.apply_of_not_touches
                  (fun all => touched ((writeOf_cons_touches _ _ _ _ _).mp all).2),
                leafAt_cons]
          · rw [if_neg same, LeafMap.Write.apply_of_not_touches
              (fun all => same ((writeOf_cons_touches _ _ _ _ _).mp all).1), leafAt_cons]

/-! ## Well-formed trees stay well formed -/

theorem WellFormed.emptyNode : WellFormed (emptyNode : FNode K) :=
  .children List.Pairwise.nil (by simp) (by simp)

theorem WellFormed.getImmediateChild {node : FNode K} (wf : node.WellFormed) (name : K) :
    (node.getImmediateChild name).WellFormed := by
  cases wf with
  | leaf value => exact .emptyNode
  | @children entries sorted pruned each =>
      simp only [FNode.getImmediateChild]
      cases held : get? name entries with
      | none => exact .emptyNode
      | some child => exact each _ (mem_of_get? held)

theorem WellFormed.updateImmediateChild {node new : FNode K} (wf : node.WellFormed)
    (hnew : new.WellFormed) (name : K) : (node.updateImmediateChild name new).WellFormed := by
  have put : ∀ {entries : List (K × FNode K)}, (FNode.children entries).WellFormed →
      new.isEmpty = false → (FNode.children (put name new entries)).WellFormed := by
    rintro entries (_ | ⟨sorted, pruned, each⟩) full
    refine .children (put_sorted name new sorted) (fun entry member => ?_)
      (fun entry member => ?_)
    · rcases mem_put member with rfl | old
      · exact full
      · exact pruned entry old
    · rcases mem_put member with rfl | old
      · exact hnew
      · exact each entry old
  by_cases empty : new.isEmpty = true
  · cases wf with
    | leaf value => simpa [FNode.updateImmediateChild, empty] using WellFormed.leaf value
    | children sorted pruned each =>
        simp only [FNode.updateImmediateChild, empty, ↓reduceIte]
        exact .children (remove_sorted name sorted)
          (fun entry member => pruned entry (List.mem_of_mem_filter member))
          (fun entry member => each entry (List.mem_of_mem_filter member))
  · have full : new.isEmpty = false := by simpa using empty
    cases node <;> simp only [FNode.updateImmediateChild, full, Bool.false_eq_true, ↓reduceIte]
    · exact put .emptyNode full
    · exact put wf full

theorem WellFormed.updateChild {node new : FNode K} (wf : node.WellFormed) (hnew : new.WellFormed)
    (path : FPath K) : (node.updateChild path new).WellFormed := by
  induction path generalizing node with
  | nil => exact hnew
  | cons front rest ih =>
      cases node with
      | leaf value =>
          simp only [FNode.updateChild]
          split
          · exact wf
          · exact wf.updateImmediateChild (ih .emptyNode) front
      | children entries => exact wf.updateImmediateChild (ih (wf.getImmediateChild front)) front

theorem WellFormed.getChild {node : FNode K} (wf : node.WellFormed) (path : FPath K) :
    (node.getChild path).WellFormed := by
  induction path generalizing node with
  | nil => exact wf
  | cons front rest ih =>
      rw [getChild_cons]
      exact ih (wf.getImmediateChild front)

end FNode

end PicksOnMap.Source
