import Mathlib.Order.Lattice
import PicksOnMap.Support.SortedEntries

/-!
# Trees of values addressed by paths

Source pin: Pods/FirebaseDatabase, FImmutableTree.m:34-110,164-343,368-387;
FUtilities.m:380-384.

A node of the tree may carry a value, also above other values. The dictionary of
children is seen as its sorted entries, which is what it stands for
(`edits_refine_sorted_entries`). Its comparator in the source takes canonically
equivalent keys for one; `K` stands for keys that it tells apart
(`StringComparator.apart`). Walks along one path that no modelled caller uses are left
out.
-/
namespace PicksOnMap.Source

open Support.SortedEntries

/-- What the trees find and order their children by, where it tells any two keys apart. -/
class StringComparator (K : Type*) where
  stringComparator : K → K → Ordering
  transCmp : Std.TransCmp stringComparator
  apart {key other : K} (same : stringComparator key other = .eq) : key = other

namespace StringComparator

variable {K : Type*} [StringComparator K]

theorem swap (key other : K) : stringComparator key other = (stringComparator other key).swap :=
  transCmp.eq_swap

scoped instance order [DecidableEq K] : LinearOrder K where
  le key other := (stringComparator key other).isLE
  lt key other := stringComparator key other = .lt
  le_refl key := by
    have self := swap key key
    cases compared : stringComparator key key <;> simp_all
  le_trans _ _ _ := transCmp.isLE_trans
  lt_iff_le_not_ge key other := by
    rw [swap other key]
    cases stringComparator key other <;> simp
  le_antisymm key other below above := by
    rw [swap other key] at above
    cases compared : stringComparator key other with
    | eq => exact apart compared
    | lt => simp [compared] at above
    | gt => simp [compared] at below
  le_total key other := by
    rw [swap other key]
    cases stringComparator key other <;> simp
  toDecidableLE _ _ := inferInstanceAs (Decidable (_ = true))
  toDecidableLT _ _ := inferInstanceAs (Decidable (_ = _))
  toDecidableEq := inferInstance

end StringComparator

open scoped StringComparator

inductive FImmutableTree (K V : Type*) where
  | node (value : Option V) (children : List (K × FImmutableTree K V))

namespace FImmutableTree

variable {K V σ : Type*}

def value : FImmutableTree K V → Option V
  | .node value _ => value

def children : FImmutableTree K V → List (K × FImmutableTree K V)
  | .node _ children => children

def initWithValue (value : V) : FImmutableTree K V := .node (some value) []

def empty : FImmutableTree K V := .node none []

def isEmpty (tree : FImmutableTree K V) : Bool := tree.value.isNone && tree.children.isEmpty

mutual

/-- The block sees the children before the value above them. -/
def forEachPathSoFar (block : List K → V → σ → σ) (pathSoFar : List K) :
    FImmutableTree K V → σ → σ
  | .node value children, seen =>
      let seen := forEachOfChildren block pathSoFar children seen
      match value with
      | some value => block pathSoFar value seen
      | none => seen

def forEachOfChildren (block : List K → V → σ → σ) (pathSoFar : List K) :
    List (K × FImmutableTree K V) → σ → σ
  | [], seen => seen
  | (childKey, childTree) :: rest, seen =>
      forEachOfChildren block pathSoFar rest
        (forEachPathSoFar block (pathSoFar ++ [childKey]) childTree seen)

end

def forEach (block : List K → V → σ → σ) (tree : FImmutableTree K V) (seen : σ) : σ :=
  forEachPathSoFar block [] tree seen

variable [DecidableEq K]

def findRootMostMatchingPath (predicate : V → Bool) :
    FImmutableTree K V → List K → Option (List K × V)
  | .node value _, [] => (value.filter predicate).map fun value => ([], value)
  | .node value children, front :: rest =>
      match value.filter predicate with
      | some value => some ([], value)
      | none =>
          match get? front children with
          | some child =>
              (child.findRootMostMatchingPath predicate rest).map fun found =>
                (front :: found.1, found.2)
          | none => none

def findRootMostValueAndPath (tree : FImmutableTree K V) (relativePath : List K) :
    Option (List K × V) :=
  tree.findRootMostMatchingPath (fun _ => true) relativePath

def subtreeAtPath : FImmutableTree K V → List K → FImmutableTree K V
  | tree, [] => tree
  | .node _ children, front :: rest =>
      match get? front children with
      | some childTree => childTree.subtreeAtPath rest
      | none => empty

def valueAtPath : FImmutableTree K V → List K → Option V
  | tree, [] => tree.value
  | .node _ children, front :: rest =>
      match get? front children with
      | some child => child.valueAtPath rest
      | none => none

section Updates

variable [StringComparator K]

def putChild (key : K) (child : FImmutableTree K V) (children : List (K × FImmutableTree K V)) :
    List (K × FImmutableTree K V) :=
  put key child children

def setValue (newValue : V) : FImmutableTree K V → List K → FImmutableTree K V
  | .node _ children, [] => .node (some newValue) children
  | .node value children, front :: rest =>
      let child := (get? front children).getD empty
      .node value (putChild front (child.setValue newValue rest) children)

/-- The source's separate results for a tree that became empty are `empty` here
without a branch. -/
def removeValueAtPath : FImmutableTree K V → List K → FImmutableTree K V
  | .node _ children, [] => .node none children
  | .node value children, front :: rest =>
      match get? front children with
      | some child =>
          let newChild := child.removeValueAtPath rest
          .node value
            (if newChild.isEmpty then remove front children else putChild front newChild children)
      | none => .node value children

def setTree : FImmutableTree K V → FImmutableTree K V → List K → FImmutableTree K V
  | .node _ _, newTree, [] => newTree
  | .node value children, newTree, front :: rest =>
      let child := (get? front children).getD empty
      let newChild := child.setTree newTree rest
      .node value
        (if newChild.isEmpty then remove front children else putChild front newChild children)

end Updates

/-! ## Folds and walks -/

section Folds

universe u

variable {K V σ : Type u}

mutual

/-- The block gets what the children were folded to, under their keys. -/
def foldWithPathSoFar (block : List K → Option V → List (K × σ) → σ) (pathSoFar : List K) :
    FImmutableTree K V → σ
  | .node value children => block pathSoFar value (foldChildren block pathSoFar children)

def foldChildren (block : List K → Option V → List (K × σ) → σ) (pathSoFar : List K) :
    List (K × FImmutableTree K V) → List (K × σ)
  | [] => []
  | (childKey, childTree) :: rest =>
      (childKey, foldWithPathSoFar block (pathSoFar ++ [childKey]) childTree) ::
        foldChildren block pathSoFar rest

end

def foldWithBlock (block : List K → Option V → List (K × σ) → σ) (tree : FImmutableTree K V) : σ :=
  foldWithPathSoFar block [] tree

def forEachChild (block : K → V → σ → σ) (tree : FImmutableTree K V) (seen : σ) : σ :=
  tree.children.foldl (fun seen child =>
    match child.2.value with
    | some value => block child.1 value seen
    | none => seen) seen

end Folds

/-- The first answer of the block on the path. -/
def findOnPathSoFar (block : List K → V → Option σ) (pathSoFar : List K) :
    FImmutableTree K V → List K → Option σ
  | .node value _, [] => value.bind (block pathSoFar)
  | .node value children, front :: rest =>
      match value.bind (block pathSoFar) with
      | some result => some result
      | none =>
          match get? front children with
          | some nextChild => findOnPathSoFar block (pathSoFar ++ [front]) nextChild rest
          | none => none

def findOnPath (block : List K → V → Option σ) (tree : FImmutableTree K V) (path : List K) :
    Option σ :=
  findOnPathSoFar block [] tree path

/-- The block says whether to go on. -/
def forEachOnPathSoFar (block : List K → V → σ → Bool × σ) (pathSoFar : List K) :
    FImmutableTree K V → List K → σ → σ
  | .node value _, [], seen =>
      match value with
      | some value => (block pathSoFar value seen).2
      | none => seen
  | .node value children, front :: rest, seen =>
      let visit :=
        match value with
        | some value => block pathSoFar value seen
        | none => (true, seen)
      if visit.1 then
        match get? front children with
        | some nextChild => forEachOnPathSoFar block (pathSoFar ++ [front]) nextChild rest visit.2
        | none => visit.2
      else visit.2

def forEachOnPath (block : List K → V → σ → Bool × σ) (tree : FImmutableTree K V)
    (path : List K) (seen : σ) : σ :=
  forEachOnPathSoFar block [] tree path seen

/-- Children are sorted and none of them is empty, at every depth. -/
inductive WellFormed [StringComparator K] : FImmutableTree K V → Prop
  | node {value : Option V} {children : List (K × FImmutableTree K V)}
      (sorted : Sorted children) (pruned : ∀ entry ∈ children, entry.2.isEmpty = false)
      (each : ∀ entry ∈ children, WellFormed entry.2) : WellFormed (.node value children)

end FImmutableTree

end PicksOnMap.Source
