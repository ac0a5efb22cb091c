import Mathlib.Algebra.Group.Nat.Defs
import Mathlib.Order.Lattice

/-!
# The left-leaning red-black tree of the sorted dictionary

Source pin: Pods/FirebaseDatabase, FLLRBValueNode.m:34-227;
FLLRBEmptyNode.m:26-67; FTreeSortedDictionary.m:38-121,141-153.

The comparator is the order of `K`. A `nil` child read off the empty node is
read as the empty node: every update of the empty node returns it unchanged, so
what would be stored there is dropped either way.
-/
namespace PicksOnMap.Source

inductive FLLRBColor where
  | red
  | black
  deriving DecidableEq, Repr

def FLLRBColor.flipped : FLLRBColor → FLLRBColor
  | .red => .black
  | .black => .red

@[simp] theorem FLLRBColor.flipped_red : FLLRBColor.red.flipped = .black := rfl

@[simp] theorem FLLRBColor.flipped_black : FLLRBColor.black.flipped = .red := rfl

@[simp] theorem FLLRBColor.flipped_flipped (color : FLLRBColor) :
    color.flipped.flipped = color := by
  cases color <;> rfl

/-- `FLLRBEmptyNode` and `FLLRBValueNode`. -/
inductive FLLRBNode (K V : Type*) where
  | empty
  | node (color : FLLRBColor) (left : FLLRBNode K V) (key : K) (value : V)
      (right : FLLRBNode K V)
  deriving Repr

/-- What the dictionary's builders and look-ups raise. -/
inductive SortedDictionaryError where
  | sameOrdering
  | rangeException
  | nonexistentKey
  | predecessorOfAbsentKey
  deriving DecidableEq, Repr

def SortedDictionaryError.reason : SortedDictionaryError → String
  | .sameOrdering => "Can't create FImmutableSortedDictionary with keys with same ordering!"
  | .rangeException => "NSRangeException"
  | .nonexistentKey => "getPredecessorKey called with nonexistent key."
  | .predecessorOfAbsentKey => "Can't get predecessor key for non-existent key"

/-- What `check` throws. -/
inductive CheckFailure (V : Type*) where
  | redNodeHasRedChild
  | rightChildIsRed
  | unequalBlackDepth (value : V) (color : FLLRBColor) (blackDepth rightCheck : Nat)

def CheckFailure.reason {V : Type*} (describe : V → String) : CheckFailure V → String
  | .redNodeHasRedChild => "Red node has a red child"
  | .rightChildIsRed => "Right child is red"
  | .unequalBlackDepth value color blackDepth rightCheck =>
      "(" ++ describe value ++ " -> " ++ (if color = .red then "red" else "black") ++
        ")blackDepth: " ++ toString blackDepth ++ " ; self.right check: " ++ toString rightCheck

namespace FLLRBNode

variable {K V : Type*}

def isEmpty : FLLRBNode K V → Bool
  | .empty => true
  | .node .. => false

def isRed : FLLRBNode K V → Bool
  | .empty => false
  | .node color .. => color = .red

def left : FLLRBNode K V → FLLRBNode K V
  | .empty => .empty
  | .node _ left _ _ _ => left

def right : FLLRBNode K V → FLLRBNode K V
  | .empty => .empty
  | .node _ _ _ _ right => right

/-- `copyWith:` with one part replaced; the empty node has no parts. -/
def withColor (n : FLLRBNode K V) (color : FLLRBColor) : FLLRBNode K V :=
  match n with
  | .empty => .empty
  | .node _ left key value right => .node color left key value right

def withLeft (n left : FLLRBNode K V) : FLLRBNode K V :=
  match n with
  | .empty => .empty
  | .node color _ key value right => .node color left key value right

def withRight (n right : FLLRBNode K V) : FLLRBNode K V :=
  match n with
  | .empty => .empty
  | .node color left key value _ => .node color left key value right

section Node

variable (color : FLLRBColor) (l : FLLRBNode K V) (key : K) (value : V) (r : FLLRBNode K V)

@[simp] theorem left_node : (node color l key value r).left = l := rfl

@[simp] theorem right_node : (node color l key value r).right = r := rfl

@[simp] theorem isEmpty_node : (node color l key value r).isEmpty = false := rfl

@[simp] theorem isRed_node : (node color l key value r).isRed = decide (color = .red) := rfl

@[simp] theorem withLeft_node (m : FLLRBNode K V) :
    (node color l key value r).withLeft m = node color m key value r := rfl

@[simp] theorem withRight_node (m : FLLRBNode K V) :
    (node color l key value r).withRight m = node color l key value m := rfl

end Node

def flipped : FLLRBNode K V → FLLRBNode K V
  | .empty => .empty
  | .node color left key value right => .node color.flipped left key value right

def count : FLLRBNode K V → Nat
  | .empty => 0
  | .node _ left _ _ right => left.count + 1 + right.count

/-- `min`: the leftmost entry. -/
def min : FLLRBNode K V → Option (K × V)
  | .empty => none
  | .node _ left key value _ => if left.isEmpty then some (key, value) else left.min

def minKey (n : FLLRBNode K V) : Option K := n.min.map Prod.fst

def maxKey : FLLRBNode K V → Option K
  | .empty => none
  | .node _ _ key _ right => if right.isEmpty then some key else right.maxKey

/-- The traversal stops at the first entry whose action answers `true`. -/
def inorderTraversal {σ : Type*} (action : K → V → σ → Bool × σ) :
    FLLRBNode K V → σ → Bool × σ
  | .empty, seen => (false, seen)
  | .node _ left key value right, seen =>
      match left.inorderTraversal action seen with
      | (true, seen) => (true, seen)
      | (false, seen) =>
          match action key value seen with
          | (true, seen) => (true, seen)
          | (false, seen) => right.inorderTraversal action seen

def reverseTraversal {σ : Type*} (action : K → V → σ → Bool × σ) :
    FLLRBNode K V → σ → Bool × σ
  | .empty, seen => (false, seen)
  | .node _ left key value right, seen =>
      match right.reverseTraversal action seen with
      | (true, seen) => (true, seen)
      | (false, seen) =>
          match action key value seen with
          | (true, seen) => (true, seen)
          | (false, seen) => left.reverseTraversal action seen

@[simp] theorem flipped_node (color : FLLRBColor) (left : FLLRBNode K V) (key : K) (value : V)
    (right : FLLRBNode K V) :
    (node color left key value right).flipped = node color.flipped left key value right := rfl

/-! ## Rotations -/

def rotateLeft : FLLRBNode K V → FLLRBNode K V
  | .empty => .empty
  | .node color left key value right =>
      (right.withLeft (.node .red left key value right.left)).withColor color

def rotateRight : FLLRBNode K V → FLLRBNode K V
  | .empty => .empty
  | .node color left key value right =>
      (left.withRight (.node .red left.right key value right)).withColor color

def colorFlip : FLLRBNode K V → FLLRBNode K V
  | .empty => .empty
  | .node color left key value right =>
      .node color.flipped left.flipped key value right.flipped

def fixUp (self : FLLRBNode K V) : FLLRBNode K V :=
  let n := if self.right.isRed && !self.left.isRed then self.rotateLeft else self
  let n := if n.left.isRed && n.left.left.isRed then n.rotateRight else n
  if n.left.isRed && n.right.isRed then n.colorFlip else n

def moveRedLeft (self : FLLRBNode K V) : FLLRBNode K V :=
  let n := self.colorFlip
  if n.right.left.isRed then ((n.withRight n.right.rotateRight).rotateLeft).colorFlip else n

def moveRedRight (self : FLLRBNode K V) : FLLRBNode K V :=
  let n := self.colorFlip
  if n.left.left.isRed then n.rotateRight.colorFlip else n

/-! ## The recursions on the left and right child shrink the tree -/

theorem count_flipped (n : FLLRBNode K V) : n.flipped.count = n.count := by
  cases n <;> rfl

theorem count_rotateLeft (n : FLLRBNode K V) : n.rotateLeft.count ≤ n.count := by
  cases n with
  | empty => exact Nat.le_refl _
  | node color left key value right =>
      cases right with
      | empty => exact Nat.zero_le _
      | node rightColor inner rightKey rightValue outer =>
          simp only [rotateLeft, withLeft, withColor, FLLRBNode.left, count]
          omega

theorem count_rotateRight (n : FLLRBNode K V) : n.rotateRight.count ≤ n.count := by
  cases n with
  | empty => exact Nat.le_refl _
  | node color left key value right =>
      cases left with
      | empty => exact Nat.zero_le _
      | node leftColor outer leftKey leftValue inner =>
          simp only [rotateRight, withRight, withColor, FLLRBNode.right, count]
          omega

theorem count_colorFlip (n : FLLRBNode K V) : n.colorFlip.count = n.count := by
  cases n <;> simp [colorFlip, count, count_flipped]

theorem count_withRight (n right : FLLRBNode K V) (fits : right.count ≤ n.right.count) :
    (n.withRight right).count ≤ n.count := by
  cases n with
  | empty => exact Nat.le_refl _
  | node color left key value held =>
      simp only [FLLRBNode.right] at fits
      simp only [withRight, count]
      omega

theorem count_moveRedLeft (n : FLLRBNode K V) : n.moveRedLeft.count ≤ n.count := by
  simp only [moveRedLeft]
  split
  · rw [count_colorFlip]
    have swapped := count_withRight n.colorFlip _ (count_rotateRight n.colorFlip.right)
    have rotated := count_rotateLeft (n.colorFlip.withRight n.colorFlip.right.rotateRight)
    have same := count_colorFlip n
    omega
  · exact Nat.le_of_eq (count_colorFlip n)

theorem count_moveRedRight (n : FLLRBNode K V) : n.moveRedRight.count ≤ n.count := by
  simp only [moveRedRight]
  split
  · rw [count_colorFlip]
    have rotated := count_rotateRight n.colorFlip
    have same := count_colorFlip n
    omega
  · exact Nat.le_of_eq (count_colorFlip n)

/-- A conditional move does not grow a tree that neither branch grows. -/
theorem count_ite {condition : Prop} [Decidable condition] {moved kept : FLLRBNode K V}
    {bound : Nat} (move : moved.count ≤ bound) (keep : kept.count ≤ bound) :
    (if condition then moved else kept).count ≤ bound := by
  split
  · exact move
  · exact keep

theorem count_left_lt {n : FLLRBNode K V} {bound : Nat} (fits : n.count ≤ bound)
    (positive : 0 < bound) : n.left.count < bound := by
  cases n with
  | empty => exact positive
  | node color left key value right =>
      simp only [count] at fits
      simp only [FLLRBNode.left]
      omega

theorem count_right_lt {n : FLLRBNode K V} {bound : Nat} (fits : n.count ≤ bound)
    (positive : 0 < bound) : n.right.count < bound := by
  cases n with
  | empty => exact positive
  | node color left key value right =>
      simp only [count] at fits
      simp only [FLLRBNode.right]
      omega

/-- Only ever sent to a node whose left child, or whose left child's left child,
can be made red by one move. -/
def removeMin : FLLRBNode K V → FLLRBNode K V
  | .empty => .empty
  | .node color left key value right =>
      if left.isEmpty then .empty
      else
        let self := FLLRBNode.node color left key value right
        let n := if !left.isRed && !left.left.isRed then self.moveRedLeft else self
        fixUp (n.withLeft n.left.removeMin)
termination_by n => n.count
decreasing_by
  exact count_left_lt (count_ite (count_moveRedLeft _) (Nat.le_refl _))
    (by simp only [count]; omega)

theorem count_fixUp (n : FLLRBNode K V) : n.fixUp.count ≤ n.count := by
  simp only [fixUp]
  have leaned : (if n.right.isRed && !n.left.isRed then n.rotateLeft else n).count ≤ n.count :=
    count_ite (count_rotateLeft n) (Nat.le_refl _)
  generalize (if n.right.isRed && !n.left.isRed then n.rotateLeft else n) = m at leaned ⊢
  have raised : (if m.left.isRed && m.left.left.isRed then m.rotateRight else m).count ≤ m.count :=
    count_ite (count_rotateRight m) (Nat.le_refl _)
  generalize (if m.left.isRed && m.left.left.isRed then m.rotateRight else m) = top at raised ⊢
  have bounded : top.count ≤ n.count := Nat.le_trans raised leaned
  exact count_ite ((count_colorFlip top).symm ▸ bounded) bounded

theorem count_withLeft (n left : FLLRBNode K V) (fits : left.count ≤ n.left.count) :
    (n.withLeft left).count ≤ n.count := by
  cases n with
  | empty => exact Nat.le_refl _
  | node color held key value right =>
      simp only [FLLRBNode.left] at fits
      simp only [withLeft, count]
      omega

theorem count_removeMin (n : FLLRBNode K V) : n.removeMin.count ≤ n.count := by
  induction n using removeMin.induct with
  | case1 => simp [removeMin]
  | case2 color left key value right leftmost => simp [removeMin, leftmost, count]
  | case3 color left key value right more self n ih =>
      rw [removeMin, if_neg more]
      have moved : n.count ≤ self.count := count_ite (count_moveRedLeft _) (Nat.le_refl _)
      have shrunk := count_withLeft n n.left.removeMin ih
      have fixed := count_fixUp (n.withLeft n.left.removeMin)
      exact Nat.le_trans fixed (Nat.le_trans shrunk moved)

/-- The smallest entry of the right subtree takes the place of the removed one. -/
def withSmallest (n : FLLRBNode K V) : FLLRBNode K V :=
  match n with
  | .empty => .empty
  | .node color left key value right =>
      match right.min with
      | none => .node color left key value right
      | some smallest => .node color left smallest.1 smallest.2 right.removeMin

theorem count_withSmallest (n : FLLRBNode K V) : n.withSmallest.count ≤ n.count := by
  cases n with
  | empty => exact Nat.le_refl _
  | node color left key value right =>
      simp only [withSmallest]
      cases right.min with
      | none => exact Nat.le_refl _
      | some smallest =>
          have shrunk := count_removeMin right
          simp only [count]
          omega

variable [LinearOrder K]

def insertKey (aKey : K) (aValue : V) : FLLRBNode K V → FLLRBNode K V
  | .empty => .node .red .empty aKey aValue .empty
  | .node color left key value right =>
      fixUp
        (if aKey < key then .node color (left.insertKey aKey aValue) key value right
        else if aKey = key then .node color left key aValue right
        else .node color left key value (right.insertKey aKey aValue))

/-- Whether the node sits on the removed key. -/
def holds (aKey : K) : FLLRBNode K V → Bool
  | .empty => false
  | .node _ _ key _ _ => aKey = key

/-- After the smallest entry has moved up, the removal still goes on in what is
left of the right subtree. -/
def remove (aKey : K) : FLLRBNode K V → FLLRBNode K V
  | .empty => .empty
  | .node color left key value right =>
      let self := FLLRBNode.node color left key value right
      if aKey < key then
        let n := if !left.isEmpty && !left.isRed && !left.left.isRed then self.moveRedLeft else self
        fixUp (n.withLeft (n.left.remove aKey))
      else
        let leaned := if left.isRed then self.rotateRight else self
        let moved :=
          if !leaned.right.isEmpty && !leaned.right.isRed && !leaned.right.left.isRed then
            leaned.moveRedRight
          else leaned
        if moved.holds aKey && moved.right.isEmpty then .empty
        else
          let n := if moved.holds aKey then moved.withSmallest else moved
          fixUp (n.withRight (n.right.remove aKey))
termination_by n => n.count
decreasing_by
  · exact count_left_lt (count_ite (count_moveRedLeft _) (Nat.le_refl _))
      (by simp only [count]; omega)
  · have leanedFits : leaned.count ≤ self.count :=
      count_ite (count_rotateRight _) (Nat.le_refl _)
    have movedFits : moved.count ≤ self.count :=
      count_ite (Nat.le_trans (count_moveRedRight _) leanedFits) leanedFits
    exact count_right_lt (count_ite (Nat.le_trans (count_withSmallest _) movedFits) movedFits)
      (by simp only [count]; omega)

/-- The parts of `check`, in the order in which they throw. -/
def check : FLLRBNode K V → Except (CheckFailure V) Nat
  | .empty => .ok 0
  | .node color left _ value right =>
      if color = .red ∧ left.isRed then .error .redNodeHasRedChild
      else if right.isRed then .error .rightChildIsRed
      else do
        let blackDepth ← left.check
        let rightCheck ← right.check
        if blackDepth ≠ rightCheck then
          .error (.unequalBlackDepth value color blackDepth rightCheck)
        else .ok (blackDepth + if color = .red then 0 else 1)

/-- `checkMaxDepth`: a red-black tree of this depth has this many entries. -/
def checkMaxDepth (n : FLLRBNode K V) : Except (CheckFailure V) Bool := do
  let blackDepth ← n.check
  .ok (2 ^ blackDepth ≤ n.count + 1)

end FLLRBNode

/-! ## The dictionary over a tree -/

structure FTreeSortedDictionary (K V : Type*) where
  root : FLLRBNode K V
  deriving Repr

namespace FTreeSortedDictionary

variable {K V : Type*} [LinearOrder K]

def insertKey (dict : FTreeSortedDictionary K V) (aKey : K) (aValue : V) :
    FTreeSortedDictionary K V :=
  ⟨(dict.root.insertKey aKey aValue).withColor .black⟩

/-- The search loop of `get:`, entered at a node. -/
def getFrom (key : K) : FLLRBNode K V → Option V
  | .empty => none
  | .node _ left held value right =>
      if key = held then some value
      else if key < held then getFrom key left
      else getFrom key right

def get (dict : FTreeSortedDictionary K V) (key : K) : Option V := getFrom key dict.root

def contains (dict : FTreeSortedDictionary K V) (key : K) : Bool := (dict.get key).isSome

/-- A key that is not there leaves the tree as it is, unbalanced by no move. -/
def removeKey (dict : FTreeSortedDictionary K V) (aKey : K) : FTreeSortedDictionary K V :=
  if dict.contains aKey then ⟨(dict.root.remove aKey).withColor .black⟩ else dict

/-- The loop of `getPredecessorKey:`; `rightParent` is the last node left to the
right, and the inner loop runs to the end of the left child's right spine. -/
def getPredecessorKeyFrom (key : K) (rightParent : Option K) :
    FLLRBNode K V → Except SortedDictionaryError (Option K)
  | .empty => .error .nonexistentKey
  | .node _ left held _ right =>
      if key = held then .ok (if left.isEmpty then rightParent else left.maxKey)
      else if key < held then getPredecessorKeyFrom key rightParent left
      else getPredecessorKeyFrom key (some held) right

def getPredecessorKey (dict : FTreeSortedDictionary K V) (key : K) :
    Except SortedDictionaryError (Option K) :=
  getPredecessorKeyFrom key none dict.root

end FTreeSortedDictionary

end PicksOnMap.Source
