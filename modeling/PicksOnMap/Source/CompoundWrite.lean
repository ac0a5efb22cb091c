import PicksOnMap.Source.DatabaseNode
import PicksOnMap.Source.ImmutableTree

/-!
# Compound writes

Source pin: Pods/FirebaseDatabase, FCompoundWrite.m:57-254; FPath.m:33-44;
FUtilities.m:339-384.

A compound write collects writes that have not reached the node they are for: a tree
of the nodes to put, by their paths. The tree finds its children by `stringComparator`,
a node finds its by `compareKey`; from here on `K` stands for keys that both tell apart,
each in its own order (`ToldApart`). Priorities are left out, as in the nodes.
-/
namespace PicksOnMap.Source

open Support.SortedEntries

/-! ## Keys that both comparators tell apart -/

/-- No two canonically equivalent spellings for `stringComparator`, and for `compareKey` no
two spellings of one integer that have the same length. -/
structure ToldApart (stringComparator : Key → Key → Ordering) (keys : Set Key) : Prop where
  transCmp : Std.TransCmp fun key other : {key // key ∈ keys} => stringComparator key other
  spellings : ∀ key ∈ keys, ∀ other ∈ keys, stringComparator key other = .eq → key = other
  slots : ∀ key ∈ keys, ∀ other ∈ keys, compareKey key.text other.text = .eq → key = other

namespace ToldApart

variable {stringComparator : Key → Key → Ordering} {keys : Set Key}

abbrev comparator (told : ToldApart stringComparator keys) :
    StringComparator {key // key ∈ keys} where
  stringComparator key other := stringComparator key other
  transCmp := told.transCmp
  apart {key other} same := Subtype.ext (told.spellings key key.2 other other.2 same)

/-- Among them the order of `Key` is that of `compareKey`. -/
theorem lt_iff_compareKey (told : ToldApart stringComparator keys)
    (key other : {key // key ∈ keys}) :
    key < other ↔ compareKey key.val.text other.val.text = .lt := by
  rw [← Subtype.coe_lt_coe, Key.lt_iff, compareKey_eq_lt_iff]
  refine or_iff_left fun same => ?_
  have equal := told.slots key key.2 other other.2 ((compareKey_eq_eq_iff _ _).mpr same.1)
  rw [equal] at same
  exact lt_irrefl _ same.2

end ToldApart

/-! Keys to evaluate the results at. On them `compare:` is a comparison of characters. -/

def sampleKeys : List Key := [⟨"coffee", rfl⟩, ⟨"tea", rfl⟩, ⟨"title", rfl⟩]

theorem sampleKeys_toldApart : ToldApart (compareOn Key.text) {key | key ∈ sampleKeys} where
  transCmp := inferInstanceAs (Std.TransCmp
    (compareOn fun key : {key // key ∈ {key | key ∈ sampleKeys}} => key.val.text))
  spellings := by
    change ∀ key ∈ sampleKeys, ∀ other ∈ sampleKeys,
      compareOn Key.text key other = .eq → key = other
    decide +kernel
  slots := by
    change ∀ key ∈ sampleKeys, ∀ other ∈ sampleKeys,
      compareKey key.text other.text = .eq → key = other
    decide +kernel

abbrev SampleKey := {key // key ∈ {key | key ∈ sampleKeys}}

instance : StringComparator SampleKey := sampleKeys_toldApart.comparator

def sampleCoffee : SampleKey := ⟨⟨"coffee", rfl⟩, by decide⟩

def sampleTea : SampleKey := ⟨⟨"tea", rfl⟩, by decide⟩

def sampleTitle : SampleKey := ⟨⟨"title", rfl⟩, by decide⟩

/-! ## Writes -/

/-- What `relativePathFrom` answers for a path within the other one; it raises for
any other. -/
def FPath.within {K : Type} (outer inner : FPath K) : FPath K := inner.drop outer.length

structure FCompoundWrite (K : Type) where
  writeTree : FImmutableTree K (FNode K)

namespace FCompoundWrite

variable {K : Type} [LinearOrder K] [StringComparator K]

def emptyWrite : FCompoundWrite K := ⟨.empty⟩

/-- A write below one that is already there is merged into it. The path that is found
contains `path`, so taking the rest of `path` does not raise (`findRootMost_eq_some`). -/
def addWrite (write : FCompoundWrite K) (node : FNode K) (path : FPath K) : FCompoundWrite K :=
  if path.isEmpty then ⟨.initWithValue node⟩
  else
    match write.writeTree.findRootMostValueAndPath path with
    | some (rootMostPath, rootMostValue) =>
        let value := rootMostValue.updateChild (FPath.within rootMostPath path) node
        ⟨write.writeTree.setValue value rootMostPath⟩
    | none => ⟨write.writeTree.setTree (.initWithValue node) path⟩

def addCompoundWrite (write compoundWrite : FCompoundWrite K) (path : FPath K) : FCompoundWrite K :=
  compoundWrite.writeTree.forEach
    (fun childPath value newWrite => newWrite.addWrite value (path ++ childPath)) write

/-- Writes at higher locations stay as they are. -/
def removeWriteAtPath (write : FCompoundWrite K) (path : FPath K) : FCompoundWrite K :=
  if path.isEmpty then emptyWrite else ⟨write.writeTree.setTree .empty path⟩

def completeNodeAtPath (write : FCompoundWrite K) (path : FPath K) : Option (FNode K) :=
  match write.writeTree.findRootMostValueAndPath path with
  | some (rootMostPath, rootMostValue) =>
      some (rootMostValue.getChild (FPath.within rootMostPath path))
  | none => none

def hasCompleteWriteAtPath (write : FCompoundWrite K) (path : FPath K) : Bool :=
  (write.completeNodeAtPath path).isSome

def completeChildren (write : FCompoundWrite K) : List (K × FNode K) :=
  match write.writeTree.value with
  | some (.leaf _) => []
  | some (.children entries) => entries
  | none => write.writeTree.children.filterMap fun child =>
      child.2.value.map fun value => (child.1, value)

def childCompoundWrites (write : FCompoundWrite K) : List (K × FCompoundWrite K) :=
  write.writeTree.children.map fun child => (child.1, ⟨child.2⟩)

def childCompoundWriteAtPath (write : FCompoundWrite K) (path : FPath K) : FCompoundWrite K :=
  if path.isEmpty then write
  else
    match write.completeNodeAtPath path with
    | some shadowingNode => ⟨.initWithValue shadowingNode⟩
    | none => ⟨write.writeTree.subtreeAtPath path⟩

mutual

def applySubtreeWrite (relativePath : FPath K) : FImmutableTree K (FNode K) → FNode K → FNode K
  | .node value children, node =>
      match value with
      | some value => node.updateChild relativePath value
      | none => applyChildWrites relativePath children node

def applyChildWrites (relativePath : FPath K) :
    List (K × FImmutableTree K (FNode K)) → FNode K → FNode K
  | [], node => node
  | (childKey, childTree) :: rest, node =>
      applyChildWrites relativePath rest
        (applySubtreeWrite (relativePath ++ [childKey]) childTree node)

end

def applyToNode (write : FCompoundWrite K) (node : FNode K) : FNode K :=
  applySubtreeWrite [] write.writeTree node

/-- The block asks for the enumeration to stop; the rest of the tree is still walked. -/
def enumerateWrites {σ : Type*} (write : FCompoundWrite K)
    (block : FPath K → FNode K → σ → Bool × σ)
    (seen : σ) : σ :=
  (write.writeTree.forEach
    (fun path value (visit : Bool × σ) => if visit.1 then visit else block path value visit.2)
    (false, seen)).2

def isEmpty (write : FCompoundWrite K) : Bool := write.writeTree.isEmpty

def rootWrite (write : FCompoundWrite K) : Option (FNode K) := write.writeTree.value

end FCompoundWrite

end PicksOnMap.Source
