import PicksOnMap.Source.DatabaseNode
import PicksOnMap.Source.SortedDictionary

/-!
# Children as their dictionary stores them

Source pin: Pods/FirebaseDatabase, FChildrenNode.m:90-144; FLeafNode.m:99-123;
FArraySortedDictionary.m:109-187; FLLRBValueNode.m:80-95.

The children are found by `compareKey`, so two spellings in one slot are one child.
Which of them the child is stored under depends on the dictionary: an array puts the
key down anew with the object, a tree only puts the object. An `FStoredNode` keeps
both, the stored keys and the representation; the dictionary itself is seen as its
sorted entries, as in `FNode`.
-/
namespace PicksOnMap.Source

open Support Support.SortedEntries

inductive Representation where
  | array
  | tree
  deriving DecidableEq, Repr

inductive FStoredNode where
  | leaf (value : FValue)
  | children (representation : Representation) (entries : List (Key × FStoredNode))

namespace FStoredNode

/-! ## The dictionary of children -/

section Dictionary

variable {V : Type}

def objectForKey (key : Key) : List (Key × V) → Option V
  | [] => none
  | (stored, object) :: rest =>
      if compareKey key.text stored.text = .eq then some object else objectForKey key rest

/-- The key an entry has after its object was put anew. -/
def storedKey (representation : Representation) (key stored : Key) : Key :=
  match representation with
  | .array => key
  | .tree => stored

def setObject (representation : Representation) (object : V) (key : Key) :
    List (Key × V) → List (Key × V)
  | [] => [(key, object)]
  | (stored, held) :: rest =>
      match compareKey key.text stored.text with
      | .lt => (key, object) :: (stored, held) :: rest
      | .eq => (storedKey representation key stored, object) :: rest
      | .gt => (stored, held) :: setObject representation object key rest

def removeObjectForKey (key : Key) (entries : List (Key × V)) : List (Key × V) :=
  entries.filter fun entry => compareKey key.text entry.1.text ≠ .eq

/-- A full array that gains a key becomes a tree; nothing turns a tree back. -/
def grown (representation : Representation) (key : Key) (entries : List (Key × V)) :
    Representation :=
  if (objectForKey key entries).isNone && decide (arrayToTreeThreshold ≤ entries.length) then .tree
  else representation

end Dictionary

/-! ## The node -/

def emptyNode : FStoredNode := .children .array []

def isEmpty : FStoredNode → Bool
  | .leaf _ => false
  | .children _ entries => entries.isEmpty

def getImmediateChild : FStoredNode → Key → FStoredNode
  | .leaf _, _ => emptyNode
  | .children _ entries, childName => (objectForKey childName entries).getD emptyNode

def getChild : FStoredNode → FPath Key → FStoredNode
  | node, [] => node
  | .leaf _, _ :: _ => emptyNode
  | .children representation entries, front :: rest =>
      ((FStoredNode.children representation entries).getImmediateChild front).getChild rest

def updateImmediateChild : FStoredNode → Key → FStoredNode → FStoredNode
  | .leaf value, childName, newChildNode =>
      if newChildNode.isEmpty then .leaf value
      else .children .array (setObject .array newChildNode childName [])
  | .children representation entries, childName, newChildNode =>
      if newChildNode.isEmpty then
        let left := removeObjectForKey childName entries
        if left.isEmpty then emptyNode else .children representation left
      else
        .children (grown representation childName entries)
          (setObject representation newChildNode childName entries)

def updateChild : FStoredNode → FPath Key → FStoredNode → FStoredNode
  | _, [], newChildNode => newChildNode
  | .leaf value, front :: rest, newChildNode =>
      if newChildNode.isEmpty then .leaf value
      else (FStoredNode.leaf value).updateImmediateChild front
        (emptyNode.updateChild rest newChildNode)
  | .children representation entries, front :: rest, newChildNode =>
      (FStoredNode.children representation entries).updateImmediateChild front
        (((FStoredNode.children representation entries).getImmediateChild front).updateChild rest
          newChildNode)

mutual

/-- A node built from a value: `fromDictionary` chooses the representation. -/
def ofNode : FNode Key → FStoredNode
  | .leaf value => .leaf value
  | .children entries =>
      .children (if entries.length ≤ arrayToTreeThreshold then .array else .tree)
        (ofEntries entries)

def ofEntries : List (Key × FNode Key) → List (Key × FStoredNode)
  | [] => []
  | (key, node) :: rest => (key, ofNode node) :: ofEntries rest

end

/-- The children a stored node has, by the keys they are stored under. -/
def entries : FStoredNode → List (Key × FStoredNode)
  | .leaf _ => []
  | .children _ entries => entries

def keys (node : FStoredNode) : List Key := node.entries.map Prod.fst

def isTree : FStoredNode → Bool
  | .leaf _ => false
  | .children representation _ => representation == .tree

/-! ## The node without its dictionaries -/

section Forget

variable {K : Type} (seen : Key → K)

mutual

/-- The node with what is `seen` of its keys: with `id` all, as a snapshot reads it, with
`Key.slot` what `compareKey` tells apart. -/
def toNode : FStoredNode → FNode K
  | .leaf value => .leaf value
  | .children _ entries => .children (toEntries entries)

def toEntries : List (Key × FStoredNode) → List (K × FNode K)
  | [] => []
  | (key, node) :: rest => (seen key, toNode node) :: toEntries rest

end

theorem toEntries_eq_map (entries : List (Key × FStoredNode)) :
    toEntries seen entries = entries.map fun entry => (seen entry.1, entry.2.toNode seen) := by
  induction entries with
  | nil => rfl
  | cons entry rest ih => simp [toEntries, ih]

@[simp] theorem toNode_emptyNode : emptyNode.toNode seen = FNode.emptyNode := rfl

@[simp] theorem isEmpty_toNode (node : FStoredNode) :
    (node.toNode seen).isEmpty = node.isEmpty := by
  cases node with
  | leaf value => rfl
  | children representation entries =>
      simp [toNode, FNode.isEmpty, isEmpty, toEntries_eq_map]

variable [LinearOrder K]

/-- What is seen of `key` and of the stored keys compares as `compareKey` does. -/
def Tells {V : Type} (key : Key) (entries : List (Key × V)) : Prop :=
  ∀ entry ∈ entries, (seen key = seen entry.1 ↔ key.slot = entry.1.slot) ∧
    (seen key < seen entry.1 ↔ key.slot < entry.1.slot)

/-- `Tells` at every node along the path. -/
def TellsAlong : FStoredNode → FPath Key → Prop
  | _, [] => True
  | .leaf _, _ :: _ => True
  | .children _ entries, front :: rest =>
      Tells seen front entries ∧ TellsAlong ((objectForKey front entries).getD emptyNode) rest

variable {seen}

theorem get?_toEntries {key : Key} {entries : List (Key × FStoredNode)}
    (tells : Tells seen key entries) :
    get? (seen key) (toEntries seen entries) = (objectForKey key entries).map (toNode seen) := by
  induction entries with
  | nil => rfl
  | cons entry rest ih =>
      obtain ⟨stored, held⟩ := entry
      have here := (tells _ List.mem_cons_self).1
      have later := ih fun entry member => tells entry (List.mem_cons_of_mem _ member)
      simp only [toEntries, get?, objectForKey, compareKey_eq_eq_iff, here, later]
      split <;> rfl

theorem toEntries_setObject {key : Key} {entries : List (Key × FStoredNode)}
    (tells : Tells seen key entries) (representation : Representation) (object : FStoredNode) :
    toEntries seen (setObject representation object key entries) =
      put (seen key) (object.toNode seen) (toEntries seen entries) := by
  induction entries with
  | nil => rfl
  | cons entry rest ih =>
      obtain ⟨stored, held⟩ := entry
      obtain ⟨same, less⟩ := tells _ List.mem_cons_self
      have later := ih fun entry member => tells entry (List.mem_cons_of_mem _ member)
      simp only [toEntries, put, setObject]
      cases compared : compareKey key.text stored.text with
      | lt =>
          have below := (compareKey_eq_lt_iff key stored).mp compared
          simp [toEntries, same, less, below, below.ne]
      | eq =>
          have equal := (compareKey_eq_eq_iff key stored).mp compared
          cases representation <;> simp [toEntries, storedKey, same.mpr equal]
      | gt =>
          have notEqual : ¬ key.slot = stored.slot := fun equal => by
            simp [(compareKey_eq_eq_iff key stored).mpr equal] at compared
          have notBelow : ¬ key.slot < stored.slot := fun below => by
            simp [(compareKey_eq_lt_iff key stored).mpr below] at compared
          simp [toEntries, same, less, notEqual, notBelow, later]

theorem toEntries_removeObjectForKey {key : Key} {entries : List (Key × FStoredNode)}
    (tells : Tells seen key entries) :
    toEntries seen (removeObjectForKey key entries) =
      remove (seen key) (toEntries seen entries) := by
  induction entries with
  | nil => rfl
  | cons entry rest ih =>
      obtain ⟨stored, held⟩ := entry
      have same := (tells _ List.mem_cons_self).1
      have later := ih fun entry member => tells entry (List.mem_cons_of_mem _ member)
      simp only [removeObjectForKey, remove, toEntries, List.filter_cons, decide_not,
        compareKey_eq_eq_iff, ne_eq] at later ⊢
      by_cases equal : key.slot = stored.slot
      · simpa [equal, (same.mpr equal).symm] using later
      · have apart : ¬ seen stored = seen key := fun alike => equal (same.mp alike.symm)
        simpa [equal, apart, toEntries] using later

theorem toNode_getImmediateChild {node : FStoredNode} {key : Key}
    (tells : Tells seen key node.entries) :
    (node.getImmediateChild key).toNode seen = (node.toNode seen).getImmediateChild (seen key) := by
  cases node with
  | leaf value => rfl
  | children representation entries =>
      replace tells : Tells seen key entries := tells
      simp only [toNode, FNode.getImmediateChild, getImmediateChild, get?_toEntries tells]
      cases objectForKey key entries <;> rfl

theorem toNode_updateImmediateChild {node : FStoredNode} {key : Key}
    (tells : Tells seen key node.entries) (new : FStoredNode) :
    (node.updateImmediateChild key new).toNode seen =
      (node.toNode seen).updateImmediateChild (seen key) (new.toNode seen) := by
  cases node with
  | leaf value =>
      simp only [updateImmediateChild, FNode.updateImmediateChild, toNode, isEmpty_toNode]
      split <;> rfl
  | children representation entries =>
      replace tells : Tells seen key entries := tells
      simp only [updateImmediateChild, FNode.updateImmediateChild, toNode, isEmpty_toNode,
        ← toEntries_setObject tells representation new, ← toEntries_removeObjectForKey tells]
      split
      · split
        · next gone =>
            rw [List.isEmpty_iff.mp gone]
            rfl
        · rfl
      · rfl

theorem tellsAlong_emptyNode (path : FPath Key) : TellsAlong seen emptyNode path := by
  induction path with
  | nil => trivial
  | cons front rest ih => exact ⟨fun _ member => absurd member List.not_mem_nil, ih⟩

/-- Where the keys along the path are told apart as `compareKey` does, an update is the
update of the plain node. -/
theorem toNode_updateChild {node : FStoredNode} {path : FPath Key}
    (tells : TellsAlong seen node path) (new : FStoredNode) :
    (node.updateChild path new).toNode seen =
      (node.toNode seen).updateChild (path.map seen) (new.toNode seen) := by
  induction path generalizing node with
  | nil => cases node <;> rfl
  | cons front rest ih =>
      cases node with
      | leaf value =>
          simp only [updateChild, List.map_cons, FNode.updateChild, toNode, isEmpty_toNode]
          split
          · rfl
          · have noEntries : Tells seen front (FStoredNode.leaf value).entries :=
              fun _ member => absurd member List.not_mem_nil
            rw [toNode_updateImmediateChild noEntries, ih (tellsAlong_emptyNode rest)]
            rfl
      | children representation entries =>
          obtain ⟨here, below⟩ := tells
          have child : (FStoredNode.children representation entries).getImmediateChild front =
              (objectForKey front entries).getD emptyNode := rfl
          simp only [updateChild, List.map_cons]
          rw [toNode_updateImmediateChild here, child, ih below, ← child,
            toNode_getImmediateChild here]
          rfl

end Forget

/-! ## Children by slots -/

theorem tells_id {V : Type} {key : Key} {entries : List (Key × V)}
    (exact : ∀ entry ∈ entries, key.slot = entry.1.slot → key = entry.1) :
    Tells id key entries := by
  intro entry member
  refine ⟨⟨fun same => congrArg Key.slot same, exact entry member⟩, ?_⟩
  rw [id, id, Key.lt_iff]
  constructor
  · intro less
    obtain less | ⟨same, texts⟩ := less
    · exact less
    · rw [exact entry member same] at texts
      exact absurd texts (lt_irrefl _)
  · exact Or.inl

theorem tells_slot {V : Type} (key : Key) (entries : List (Key × V)) :
    Tells Key.slot key entries := fun _ _ => ⟨Iff.rfl, Iff.rfl⟩

theorem tellsAlong_slot (node : FStoredNode) (path : FPath Key) :
    TellsAlong Key.slot node path := by
  induction path generalizing node with
  | nil => trivial
  | cons front rest ih =>
      cases node with
      | leaf value => trivial
      | children representation entries => exact ⟨tells_slot front entries, ih _⟩

/-- Sorted and pruned by slots, so no two children share one. -/
def WellFormed (node : FStoredNode) : Prop := (node.toNode Key.slot).WellFormed

theorem wellFormed_emptyNode : emptyNode.WellFormed := FNode.WellFormed.emptyNode

theorem WellFormed.updateChild {node new : FStoredNode} (wf : node.WellFormed)
    (newWf : new.WellFormed) (path : FPath Key) : (node.updateChild path new).WellFormed := by
  unfold WellFormed
  rw [toNode_updateChild (tellsAlong_slot node path)]
  exact FNode.WellFormed.updateChild wf newWf _

theorem WellFormed.getImmediateChild {node : FStoredNode} (wf : node.WellFormed) (key : Key) :
    (node.getImmediateChild key).WellFormed := by
  unfold WellFormed
  rw [toNode_getImmediateChild (tells_slot key _)]
  exact FNode.WellFormed.getImmediateChild wf _

/-- The stored keys by their slots. -/
def slotKeys (entries : List (Key × FStoredNode)) : List (KeySlot × Key) :=
  entries.map fun entry => (entry.1.slot, entry.1)

/-- The key that the child in a slot is stored under. -/
def keyIn (node : FStoredNode) (slot : KeySlot) : Option Key := get? slot (slotKeys node.entries)

/-- The key that a child is stored under once it was put at `key`. -/
def keyPut (node : FStoredNode) (key : Key) : Key :=
  match node.keyIn key.slot with
  | some stored => if node.isTree then stored else key
  | none => key

theorem WellFormed.sorted {node : FStoredNode} (wf : node.WellFormed) :
    Sorted (slotKeys node.entries) := by
  cases node with
  | leaf value => exact List.Pairwise.nil
  | children representation entries =>
      obtain _ | ⟨sorted, _, _⟩ := wf
      refine Sorted.of_keys sorted ?_
      simp [slotKeys, FStoredNode.entries, toEntries_eq_map, Function.comp_def]

theorem slot_of_keyIn {node : FStoredNode} {slot : KeySlot} {key : Key}
    (held : node.keyIn slot = some key) : key.slot = slot := by
  obtain ⟨entry, _, same⟩ := List.mem_map.mp (mem_of_get? held)
  cases same
  rfl

theorem WellFormed.mem_keys_iff {node : FStoredNode} (wf : node.WellFormed) (key : Key) :
    key ∈ node.keys ↔ node.keyIn key.slot = some key := by
  unfold keyIn
  rw [← mem_iff_get? wf.sorted]
  simp [keys, slotKeys]

/-- A slot without a key has no child. -/
theorem getImmediateChild_of_keyIn_none {node : FStoredNode} {slot : KeySlot}
    (free : node.keyIn slot = none) :
    (node.toNode Key.slot).getImmediateChild slot = FNode.emptyNode := by
  cases node with
  | leaf value => rfl
  | children representation entries =>
      have absent : ∀ entries : List (Key × FStoredNode), get? slot (slotKeys entries) = none →
          get? slot (toEntries Key.slot entries) = none := by
        intro entries free
        induction entries with
        | nil => rfl
        | cons entry rest ih =>
            simp only [slotKeys, List.map_cons, get?, toEntries] at free ⊢
            split at free
            · cases free
            · next apart => rw [if_neg apart, ih free]
      simp only [toNode, FNode.getImmediateChild, absent entries free, Option.getD_none]

theorem objectForKey_isNone (key : Key) (entries : List (Key × FStoredNode)) :
    (objectForKey key entries).isNone = (get? key.slot (slotKeys entries)).isNone := by
  induction entries with
  | nil => rfl
  | cons entry rest ih =>
      obtain ⟨stored, held⟩ := entry
      simp only [objectForKey, compareKey_eq_eq_iff, slotKeys, List.map_cons, get?]
      split
      · rfl
      · exact ih

/-- Putting an object keeps the keys of the other slots and decides that of its own. -/
theorem slotKeys_setObject {key : Key} {entries : List (Key × FStoredNode)}
    (sorted : Sorted (slotKeys entries)) (representation : Representation)
    (object : FStoredNode) :
    slotKeys (setObject representation object key entries) =
      put key.slot
        (((get? key.slot (slotKeys entries)).map (storedKey representation key)).getD key)
        (slotKeys entries) := by
  induction entries with
  | nil => rfl
  | cons entry rest ih =>
      obtain ⟨stored, held⟩ := entry
      obtain ⟨above, restSorted⟩ := List.pairwise_cons.mp sorted
      simp only [slotKeys, List.map_cons, get?, put, setObject] at ih ⊢
      cases compared : compareKey key.text stored.text with
      | lt =>
          have below := (compareKey_eq_lt_iff key stored).mp compared
          have absent : get? key.slot (rest.map fun entry => (entry.1.slot, entry.1)) = none := by
            rw [Option.eq_none_iff_forall_ne_some]
            intro found held
            exact lt_asymm below (above _ (mem_of_get? held))
          simp [below, below.ne, absent]
      | eq =>
          have equal := (compareKey_eq_eq_iff key stored).mp compared
          cases representation <;> simp [storedKey, equal]
      | gt =>
          have notEqual : ¬ key.slot = stored.slot := fun equal => by
            simp [(compareKey_eq_eq_iff key stored).mpr equal] at compared
          have notBelow : ¬ key.slot < stored.slot := fun below => by
            simp [(compareKey_eq_lt_iff key stored).mpr below] at compared
          simp [notEqual, notBelow, ih restSorted]

theorem slotKeys_removeObjectForKey (key : Key) (entries : List (Key × FStoredNode)) :
    slotKeys (removeObjectForKey key entries) = remove key.slot (slotKeys entries) := by
  unfold slotKeys removeObjectForKey remove
  rw [List.filter_map]
  congr 2
  funext entry
  simp [compareKey_eq_eq_iff, @eq_comm _ key.slot]

theorem WellFormed.keyIn_updateImmediateChild {node : FStoredNode} (wf : node.WellFormed)
    (key : Key) {new : FStoredNode} (full : new.isEmpty = false) (slot : KeySlot) :
    (node.updateImmediateChild key new).keyIn slot =
      if slot = key.slot then some (node.keyPut key) else node.keyIn slot := by
  cases node with
  | leaf value =>
      simp [updateImmediateChild, full, setObject, keyIn, slotKeys, FStoredNode.entries, get?,
        keyPut]
  | children representation entries =>
      have sorted := wf.sorted
      simp only [FStoredNode.entries] at sorted
      simp only [updateImmediateChild, full, Bool.false_eq_true, ↓reduceIte, keyIn,
        FStoredNode.entries, slotKeys_setObject sorted, get?_put, keyPut, isTree]
      split
      · cases get? key.slot (slotKeys entries) with
        | none => rfl
        | some stored => cases representation <;> rfl
      · rfl

theorem keyIn_removed (node : FStoredNode) (key : Key) {new : FStoredNode}
    (empty : new.isEmpty = true) (slot : KeySlot) :
    (node.updateImmediateChild key new).keyIn slot =
      if slot = key.slot then none else node.keyIn slot := by
  cases node with
  | leaf value => simp [updateImmediateChild, empty, keyIn, slotKeys, FStoredNode.entries, get?]
  | children representation entries =>
      have left : get? slot (slotKeys (removeObjectForKey key entries)) =
          if slot = key.slot then none else get? slot (slotKeys entries) := by
        rw [slotKeys_removeObjectForKey, get?_remove]
        split <;> rfl
      simp only [updateImmediateChild, empty, ↓reduceIte]
      split
      · next gone =>
          rw [List.isEmpty_iff.mp gone] at left
          exact left
      · exact left

theorem isTree_updateImmediateChild (node : FStoredNode) (key : Key) {new : FStoredNode}
    (full : new.isEmpty = false) :
    (node.updateImmediateChild key new).isTree =
      (node.isTree ||
        ((node.keyIn key.slot).isNone && decide (arrayToTreeThreshold ≤ node.keys.length))) := by
  cases node with
  | leaf value =>
      simp [updateImmediateChild, full, isTree, keys, FStoredNode.entries, arrayToTreeThreshold]
  | children representation entries =>
      simp only [updateImmediateChild, full, Bool.false_eq_true, ↓reduceIte, isTree, grown,
        objectForKey_isNone, keyIn, keys, FStoredNode.entries, List.length_map]
      split
      · next grows => simp [grows]
      · next stays => simp [stays]

/-- Removing a child leaves the dictionary as it is while another child is left. -/
theorem isTree_removed {node : FStoredNode} {key other : Key} {new : FStoredNode}
    (empty : new.isEmpty = true) {slot : KeySlot} (left : node.keyIn slot = some other)
    (apart : slot ≠ key.slot) : (node.updateImmediateChild key new).isTree = node.isTree := by
  have kept := keyIn_removed node key empty slot
  rw [if_neg apart, left] at kept
  cases node with
  | leaf value => simp [updateImmediateChild, empty]
  | children representation entries =>
      simp only [updateImmediateChild, empty, ↓reduceIte] at kept ⊢
      split at kept
      · cases kept
      · next some => rw [if_neg some]; rfl

theorem objectForKey_setObject (representation : Representation) (object : FStoredNode) (key : Key)
    (entries : List (Key × FStoredNode)) :
    objectForKey key (setObject representation object key entries) = some object := by
  have self : compareKey key.text key.text = .eq := (compareKey_eq_eq_iff key key).mpr rfl
  induction entries with
  | nil => simp [setObject, objectForKey, self]
  | cons entry rest ih =>
      obtain ⟨stored, held⟩ := entry
      simp only [setObject]
      cases compared : compareKey key.text stored.text with
      | lt => simp [objectForKey, self]
      | eq => cases representation <;> simp [objectForKey, storedKey, self, compared]
      | gt => simp [objectForKey, compared, ih]

theorem objectForKey_removeObjectForKey (key : Key) (entries : List (Key × FStoredNode)) :
    objectForKey key (removeObjectForKey key entries) = none := by
  have absent := objectForKey_isNone key (removeObjectForKey key entries)
  rw [slotKeys_removeObjectForKey, get?_remove, if_pos rfl] at absent
  exact Option.isNone_iff_eq_none.mp absent

theorem getImmediateChild_updateImmediateChild_self (node : FStoredNode) (key : Key)
    {new : FStoredNode} (pruned : new.isEmpty = true → new = emptyNode) :
    (node.updateImmediateChild key new).getImmediateChild key = new := by
  cases empty : new.isEmpty with
  | true =>
      rw [pruned empty]
      cases node with
      | leaf value => rfl
      | children representation entries =>
          have gone := objectForKey_removeObjectForKey key entries
          simp only [updateImmediateChild, show emptyNode.isEmpty = true from rfl, ↓reduceIte]
          split
          · rfl
          · simp [getImmediateChild, gone]
  | false =>
      cases node with
      | leaf value =>
          simp [updateImmediateChild, empty, getImmediateChild, objectForKey_setObject]
      | children representation entries =>
          simp [updateImmediateChild, empty, getImmediateChild, objectForKey_setObject]

/-- An update that leaves nothing leaves the empty node. -/
theorem eq_emptyNode_of_isEmpty_updateChild {node new : FStoredNode} {path : FPath Key}
    (pruned : new.isEmpty = true → new = emptyNode)
    (empty : (node.updateChild path new).isEmpty = true) :
    node.updateChild path new = emptyNode := by
  have immediate : ∀ (node : FStoredNode) (key : Key) (child : FStoredNode),
      (node.updateImmediateChild key child).isEmpty = true →
        node.updateImmediateChild key child = emptyNode := by
    intro node key child gone
    cases node with
    | leaf value =>
        simp only [updateImmediateChild] at gone ⊢
        split at gone <;> cases gone
    | children representation entries =>
        simp only [updateImmediateChild] at gone ⊢
        split at gone
        · next childEmpty =>
            rw [if_pos childEmpty]
            split at gone
            · next left => rw [if_pos left]
            · next left => exact absurd gone left
        · have held := objectForKey_setObject representation child key entries
          rw [List.isEmpty_iff.mp gone] at held
          cases held
  cases path with
  | nil => cases node <;> exact pruned empty
  | cons front rest =>
      cases node with
      | leaf value =>
          simp only [updateChild] at empty ⊢
          split at empty
          · cases empty
          · next full => rw [if_neg full]; exact immediate _ _ _ empty
      | children representation entries => exact immediate _ _ _ empty

theorem updateChild_emptyNode (path : FPath Key) :
    emptyNode.updateChild path emptyNode = emptyNode := by
  induction path with
  | nil => rfl
  | cons front rest ih =>
      change (emptyNode.updateImmediateChild front (emptyNode.updateChild rest emptyNode)) = _
      rw [ih]
      rfl

theorem updateChild_cons {node new : FStoredNode} (front : Key) (rest : FPath Key)
    (pruned : new.isEmpty = true → new = emptyNode) :
    node.updateChild (front :: rest) new =
      node.updateImmediateChild front ((node.getImmediateChild front).updateChild rest new) := by
  cases node with
  | leaf value =>
      simp only [updateChild]
      split
      · next empty =>
          rw [pruned empty]
          change _ = (leaf value).updateImmediateChild front (emptyNode.updateChild rest emptyNode)
          rw [updateChild_emptyNode]
          rfl
      · rfl
  | children representation entries => rfl

/-- Below its first key an update is an update of the child. -/
theorem getImmediateChild_updateChild_self {node new : FStoredNode} (front : Key)
    (rest : FPath Key) (pruned : new.isEmpty = true → new = emptyNode) :
    (node.updateChild (front :: rest) new).getImmediateChild front =
      (node.getImmediateChild front).updateChild rest new := by
  rw [updateChild_cons front rest pruned]
  exact getImmediateChild_updateImmediateChild_self _ _
    (eq_emptyNode_of_isEmpty_updateChild pruned)

theorem isEmpty_updateChild (node : FStoredNode) (path : FPath Key) {new : FStoredNode}
    (full : new.isEmpty = false) : (node.updateChild path new).isEmpty = false := by
  rw [← isEmpty_toNode Key.slot, toNode_updateChild (tellsAlong_slot node path)]
  exact FNode.isEmpty_updateChild _ _ (by rw [isEmpty_toNode, full])

end FStoredNode

end PicksOnMap.Source
