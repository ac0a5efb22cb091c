import PicksOnMap.Source.LeftLeaningTree
import Mathlib.Data.List.InsertIdx
import Mathlib.Data.Nat.Log

/-!
# The immutable sorted dictionary

Source pin: Pods/FirebaseDatabase, FImmutableSortedDictionary.h:23;
FImmutableSortedDictionary.m:13-26,87-101; FArraySortedDictionary.m:49-283;
FTreeSortedDictionary.m:123-323; FTreeSortedDictionaryEnumerator.m:11-80.

Up to 25 entries live in two parallel arrays; the insertion that exceeds them
builds a tree out of runs whose lengths are the digits of the entry count in
base {1,2}. An `NSDictionary` is the list of its pairs in enumeration order.
`log_base2` truncates a quotient of two logarithms, which is the binary
logarithm at every `unsigned int`.
-/
namespace PicksOnMap.Source

/-! ## Sorting a dictionary's pairs -/

section Sorting

variable {K V : Type*} [LinearOrder K]

/-- The check over neighbours: each key lies strictly above the one before it. -/
def ascending : List (K × V) → Bool
  | first :: second :: rest => first.1 < second.1 && ascending (second :: rest)
  | _ => true

def sortedPairs (dictionary : List (K × V)) : Except SortedDictionaryError (List (K × V)) :=
  let sorted := dictionary.mergeSort fun first second => first.1 ≤ second.1
  if ascending sorted then .ok sorted else .error .sameOrdering

end Sorting

/-! ## Building a tree -/

structure Base12List where
  bits : Nat
  count : Nat
  current : Nat
  deriving DecidableEq, Repr

def bitMask (x : Nat) : Nat := (1 <<< x) - 1

def Base12List.new (length : Nat) : Base12List :=
  let count := Nat.log2 (length + 1)
  { bits := (length + 1) &&& bitMask count, count, current := count - 1 }

/-- Whether the next digit is a one, and the list moved on by one bit. -/
def Base12List.next (list : Base12List) : Bool × Base12List :=
  (list.bits &&& (1 <<< list.current) = 0, { list with current := list.current - 1 })

namespace FTreeSortedDictionary

variable {K V : Type*}

def objectAt (keyList : List (K × V)) (index : Nat) : Except SortedDictionaryError (K × V) :=
  match keyList[index]? with
  | none => .error .rangeException
  | some pair => .ok pair

def buildBalancedTree (keyList : List (K × V)) (startIndex length : Nat) :
    Except SortedDictionaryError (FLLRBNode K V) :=
  let bounded := Nat.min (keyList.length - startIndex) length
  if bounded = 0 then .ok .empty
  else if bounded = 1 then do
    let pair ← objectAt keyList startIndex
    .ok (.node .black .empty pair.1 pair.2 .empty)
  else do
    let middle := bounded / 2
    let left ← buildBalancedTree keyList startIndex middle
    let right ← buildBalancedTree keyList (startIndex + middle + 1) middle
    let pair ← objectAt keyList (startIndex + middle)
    .ok (.node .black left pair.1 pair.2 right)
termination_by length
decreasing_by
  all_goals
    have fits : bounded ≤ length := Nat.min_le_right _ _
    omega

/-- A run of entries: the smallest one over the balanced tree of the others. -/
structure Pennant (K V : Type*) where
  color : FLLRBColor
  key : K
  value : V
  childTree : FLLRBNode K V

structure TreeBuilder (K V : Type*) where
  index : Nat
  pennants : List (Pennant K V)

def buildPennant (keyList : List (K × V)) (color : FLLRBColor) (chunkSize : Nat)
    (builder : TreeBuilder K V) : Except SortedDictionaryError (TreeBuilder K V) := do
  let startIndex := builder.index - chunkSize + 1
  let index := builder.index - chunkSize
  let pair ← objectAt keyList index
  let childTree ← buildBalancedTree keyList startIndex (chunkSize - 1)
  .ok { index, pennants := builder.pennants ++ [⟨color, pair.1, pair.2, childTree⟩] }

/-- Each pennant is the left child of the one built before it. -/
def attached : List (Pennant K V) → FLLRBNode K V
  | [] => .empty
  | pennant :: rest =>
      .node pennant.color (attached rest) pennant.key pennant.value pennant.childTree

/-- The loop of `rootFrom12List:` from its turn `i` on, `turns` turns long. -/
def buildPennants (keyList : List (K × V)) (i : Nat) :
    Nat → Base12List → TreeBuilder K V → Except SortedDictionaryError (TreeBuilder K V)
  | 0, _, builder => .ok builder
  | turns + 1, list, builder => do
      let (isOne, list) := list.next
      let chunkSize := 2 ^ (list.count - (i + 1))
      let builder ← buildPennant keyList .black chunkSize builder
      let builder ← if isOne then .ok builder else buildPennant keyList .red chunkSize builder
      buildPennants keyList (i + 1) turns list builder

def rootFrom12List (list : Base12List) (keyList : List (K × V)) :
    Except SortedDictionaryError (FLLRBNode K V) := do
  let builder ← buildPennants keyList 0 list.count list { index := keyList.length, pennants := [] }
  .ok (attached builder.pennants)

def fromDictionary [LinearOrder K] (dictionary : List (K × V)) :
    Except SortedDictionaryError (FTreeSortedDictionary K V) := do
  let sortedKeyList ← sortedPairs dictionary
  let root ← rootFrom12List (Base12List.new sortedKeyList.length) sortedKeyList
  .ok ⟨root⟩

end FTreeSortedDictionary

/-! ## The dictionary over arrays -/

structure FArraySortedDictionary (K V : Type*) where
  keys : List K
  values : List V
  sameCount : values.length = keys.length

namespace FArraySortedDictionary

variable {K V : Type*}

def empty : FArraySortedDictionary K V := ⟨[], [], rfl⟩

def count (dict : FArraySortedDictionary K V) : Nat := dict.keys.length

/-- The entries, as the loops over positions read them. -/
def entries (dict : FArraySortedDictionary K V) : List (K × V) := dict.keys.zip dict.values

variable [LinearOrder K]

def fromDictionary (dictionary : List (K × V)) :
    Except SortedDictionaryError (FArraySortedDictionary K V) := do
  let pairs ← sortedPairs dictionary
  .ok ⟨pairs.map Prod.fst, pairs.map Prod.snd, by simp⟩

def findInsertPositionForKey (key : K) : List K → Nat
  | [] => 0
  | held :: rest => if held < key then findInsertPositionForKey key rest + 1 else 0

/-- `NSNotFound` is `none`. -/
def findKey (key : K) : List K → Option Nat
  | [] => none
  | held :: rest =>
      if key = held then some 0
      else if key < held then none
      else (findKey key rest).map (· + 1)

theorem findInsertPositionForKey_le (key : K) (keys : List K) :
    findInsertPositionForKey key keys ≤ keys.length := by
  induction keys with
  | nil => exact Nat.le_refl _
  | cons held rest ih =>
      simp only [findInsertPositionForKey, List.length_cons]
      split <;> omega

def inserted (dict : FArraySortedDictionary K V) (key : K) (value : V) :
    FArraySortedDictionary K V :=
  let newPos := findInsertPositionForKey key dict.keys
  { keys := dict.keys.insertIdx newPos key
    values := dict.values.insertIdx newPos value
    sameCount := by
      have fits := findInsertPositionForKey_le key dict.keys
      rw [List.length_insertIdx_of_le_length fits,
        List.length_insertIdx_of_le_length (dict.sameCount ▸ fits), dict.sameCount] }

def replaced (dict : FArraySortedDictionary K V) (pos : Nat) (key : K) (value : V) :
    FArraySortedDictionary K V :=
  ⟨dict.keys.set pos key, dict.values.set pos value, by simp [dict.sameCount]⟩

def removeKey (dict : FArraySortedDictionary K V) (key : K) : FArraySortedDictionary K V :=
  match findKey key dict.keys with
  | none => dict
  | some pos =>
      ⟨dict.keys.eraseIdx pos, dict.values.eraseIdx pos,
        by simp [List.length_eraseIdx, dict.sameCount]⟩

def get (dict : FArraySortedDictionary K V) (key : K) : Option V :=
  match findKey key dict.keys with
  | none => none
  | some pos => dict.values[pos]?

def contains (dict : FArraySortedDictionary K V) (key : K) : Bool :=
  (findKey key dict.keys).isSome

def getPredecessorKey (dict : FArraySortedDictionary K V) (key : K) :
    Except SortedDictionaryError (Option K) :=
  match findKey key dict.keys with
  | none => .error .predecessorOfAbsentKey
  | some 0 => .ok none
  | some (pos + 1) => .ok dict.keys[pos]?

end FArraySortedDictionary

/-! ## Key enumerators -/

/-- The nodes still to be visited, the next one first. -/
structure FTreeSortedDictionaryEnumerator (K V : Type*) where
  stack : List (FLLRBNode K V)
  isReverse : Bool

namespace FTreeSortedDictionaryEnumerator

variable {K V : Type*}

/-- The loop that fills the stack from a node on. Without a start key the
comparison counts as "greater", and is flipped in reverse like any other. -/
def pushFrom [LinearOrder K] (startKey : Option K) (isReverse : Bool) :
    FLLRBNode K V → List (FLLRBNode K V) → List (FLLRBNode K V)
  | .empty, stack => stack
  | .node color left key value right, stack =>
      let self := FLLRBNode.node color left key value right
      let cmp := match startKey with
        | none => Ordering.gt
        | some start => compare key start
      match if isReverse then cmp.swap else cmp with
      | .lt => if isReverse then pushFrom startKey isReverse left stack
          else pushFrom startKey isReverse right stack
      | .eq => self :: stack
      | .gt => if isReverse then pushFrom startKey isReverse right (self :: stack)
          else pushFrom startKey isReverse left (self :: stack)

def initWithImmutableSortedDictionary [LinearOrder K] (dict : FTreeSortedDictionary K V)
    (startKey : Option K) (isReverse : Bool) : FTreeSortedDictionaryEnumerator K V :=
  ⟨pushFrom startKey isReverse dict.root [], isReverse⟩

/-- A node and its whole left or right spine go on the stack. -/
def pushSpine (isReverse : Bool) : FLLRBNode K V → List (FLLRBNode K V) → List (FLLRBNode K V)
  | .empty, stack => stack
  | .node color left key value right, stack =>
      let self := FLLRBNode.node color left key value right
      if isReverse then pushSpine isReverse right (self :: stack)
      else pushSpine isReverse left (self :: stack)

def nextObject (enumerator : FTreeSortedDictionaryEnumerator K V) :
    Option (K × FTreeSortedDictionaryEnumerator K V) :=
  match enumerator.stack with
  | [] => none
  | .empty :: _ => none
  | .node _ left key _ right :: stack =>
      let rest := if enumerator.isReverse then pushSpine true left stack
        else pushSpine false right stack
      some (key, { enumerator with stack := rest })

end FTreeSortedDictionaryEnumerator

structure FArraySortedDictionaryEnumerator (K : Type*) where
  keys : List K
  pos : Int
  reverse : Bool

def FArraySortedDictionaryEnumerator.nextObject {K : Type*}
    (enumerator : FArraySortedDictionaryEnumerator K) :
    Option (K × FArraySortedDictionaryEnumerator K) :=
  if 0 ≤ enumerator.pos then
    match enumerator.keys[enumerator.pos.toNat]? with
    | none => none
    | some key =>
        let pos := if enumerator.reverse then enumerator.pos - 1 else enumerator.pos + 1
        some (key, { enumerator with pos })
  else none

/-- What `keyEnumerator` and its three siblings return. -/
inductive KeyEnumerator (K V : Type*) where
  | array (enumerator : FArraySortedDictionaryEnumerator K)
  | tree (enumerator : FTreeSortedDictionaryEnumerator K V)

def KeyEnumerator.nextObject {K V : Type*} :
    KeyEnumerator K V → Option (K × KeyEnumerator K V)
  | .array enumerator => enumerator.nextObject.map fun next => (next.1, .array next.2)
  | .tree enumerator => enumerator.nextObject.map fun next => (next.1, .tree next.2)

/-! ## The two together -/

/-- `SORTED_DICTIONARY_ARRAY_TO_RB_TREE_SIZE_THRESHOLD` -/
def arrayToTreeThreshold : Nat := 25

inductive FImmutableSortedDictionary (K V : Type*) where
  | array (dict : FArraySortedDictionary K V)
  | tree (dict : FTreeSortedDictionary K V)

namespace FImmutableSortedDictionary

variable {K V : Type*}

def dictionaryWithComparator : FImmutableSortedDictionary K V := .array .empty

def count : FImmutableSortedDictionary K V → Nat
  | .array dict => dict.count
  | .tree dict => dict.root.count

def isEmpty : FImmutableSortedDictionary K V → Bool
  | .array dict => dict.keys.length = 0
  | .tree dict => dict.root.isEmpty

def minKey : FImmutableSortedDictionary K V → Option K
  | .array dict => dict.keys.head?
  | .tree dict => dict.root.minKey

def maxKey : FImmutableSortedDictionary K V → Option K
  | .array dict => dict.keys.getLast?
  | .tree dict => dict.root.maxKey

/-- The loop of the array enumeration: the block may ask to stop. -/
def enumerateEntries {σ : Type*} (block : K → V → σ → Bool × σ) : List (K × V) → σ → σ
  | [], seen => seen
  | (key, value) :: rest, seen =>
      match block key value seen with
      | (true, seen) => seen
      | (false, seen) => enumerateEntries block rest seen

def enumerateKeysAndObjectsReverse {σ : Type*} (reverse : Bool) (block : K → V → σ → Bool × σ)
    (dict : FImmutableSortedDictionary K V) (seen : σ) : σ :=
  match dict with
  | .array dict =>
      if reverse then enumerateEntries block dict.entries.reverse seen
      else enumerateEntries block dict.entries seen
  | .tree dict =>
      if reverse then (dict.root.reverseTraversal block seen).2
      else (dict.root.inorderTraversal block seen).2

variable [LinearOrder K]

def fromDictionary (dictionary : List (K × V)) :
    Except SortedDictionaryError (FImmutableSortedDictionary K V) :=
  if dictionary.length ≤ arrayToTreeThreshold then
    (FArraySortedDictionary.fromDictionary dictionary).map .array
  else (FTreeSortedDictionary.fromDictionary dictionary).map .tree

/-- Only an insertion into a full array changes the representation. -/
def insertKey (dict : FImmutableSortedDictionary K V) (key : K) (value : V) :
    Except SortedDictionaryError (FImmutableSortedDictionary K V) :=
  match dict with
  | .array dict =>
      match FArraySortedDictionary.findKey key dict.keys with
      | none =>
          if arrayToTreeThreshold ≤ dict.count then
            (FTreeSortedDictionary.fromDictionary (dict.entries ++ [(key, value)])).map .tree
          else .ok (.array (dict.inserted key value))
      | some pos => .ok (.array (dict.replaced pos key value))
  | .tree dict => .ok (.tree (dict.insertKey key value))

def removeKey (dict : FImmutableSortedDictionary K V) (key : K) : FImmutableSortedDictionary K V :=
  match dict with
  | .array dict => .array (dict.removeKey key)
  | .tree dict => .tree (dict.removeKey key)

def get (dict : FImmutableSortedDictionary K V) (key : K) : Option V :=
  match dict with
  | .array dict => dict.get key
  | .tree dict => dict.get key

def contains (dict : FImmutableSortedDictionary K V) (key : K) : Bool :=
  match dict with
  | .array dict => dict.contains key
  | .tree dict => dict.contains key

def getPredecessorKey (dict : FImmutableSortedDictionary K V) (key : K) :
    Except SortedDictionaryError (Option K) :=
  match dict with
  | .array dict => dict.getPredecessorKey key
  | .tree dict => dict.getPredecessorKey key

/-- Equal counts, and under each key of the one an equal value in the other. -/
def isEqual (same : V → V → Bool) (dict other : FImmutableSortedDictionary K V) : Bool :=
  if dict.count ≠ other.count then false
  else
    dict.enumerateKeysAndObjectsReverse false
      (fun key value isEqual =>
        let isEqual := isEqual && (other.get key).any (same value)
        (!isEqual, isEqual))
      true

def keyEnumerator : FImmutableSortedDictionary K V → KeyEnumerator K V
  | .array dict => .array ⟨dict.keys, 0, false⟩
  | .tree dict => .tree (.initWithImmutableSortedDictionary dict none false)

def keyEnumeratorFrom (dict : FImmutableSortedDictionary K V) (startKey : K) :
    KeyEnumerator K V :=
  match dict with
  | .array dict =>
      .array ⟨dict.keys, FArraySortedDictionary.findInsertPositionForKey startKey dict.keys, false⟩
  | .tree dict => .tree (.initWithImmutableSortedDictionary dict (some startKey) false)

def reverseKeyEnumerator : FImmutableSortedDictionary K V → KeyEnumerator K V
  | .array dict => .array ⟨dict.keys, (dict.keys.length : Int) - 1, true⟩
  | .tree dict => .tree (.initWithImmutableSortedDictionary dict none true)

/-- Without an exact match the insert position lies behind the closest match. -/
def reverseKeyEnumeratorFrom (dict : FImmutableSortedDictionary K V) (startKey : K) :
    KeyEnumerator K V :=
  match dict with
  | .array dict =>
      let startPos := FArraySortedDictionary.findInsertPositionForKey startKey dict.keys
      let pos : Int := if dict.keys[startPos]? = some startKey then startPos else startPos - 1
      .array ⟨dict.keys, pos, true⟩
  | .tree dict => .tree (.initWithImmutableSortedDictionary dict (some startKey) true)

end FImmutableSortedDictionary

end PicksOnMap.Source
