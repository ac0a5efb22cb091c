import PicksOnMap.Source.LeftLeaningTree
import PicksOnMap.Support.SortedEntries
import Mathlib.Tactic.SplitIfs

/-!
# The sorted dictionary's tree stays sorted and balanced

Source pin: Pods/FirebaseDatabase, FLLRBValueNode.m:77-227;
FTreeSortedDictionary.m:38-82.

`Balanced` carries the color of the root and the black depth. An insertion may
leave a red root over a red left child; a removal starts from a root that is
red or leans on a red child, and hands such a root down. The code removes the
smallest entry of the right subtree and then still searches there for the
removed key, so that a removal of a key below the whole tree must be shown to
give back a tree of the same color and depth (`remove_below`).
-/
namespace PicksOnMap.Source.FLLRBNode

open Support

variable {K V : Type*}

def entries : FLLRBNode K V → List (K × V)
  | .empty => []
  | .node _ left key value right => left.entries ++ (key, value) :: right.entries

inductive Balanced : FLLRBNode K V → FLLRBColor → Nat → Prop
  | empty : Balanced .empty .black 0
  | red {left right : FLLRBNode K V} {key : K} {value : V} {depth : Nat} :
      Balanced left .black depth → Balanced right .black depth →
        Balanced (.node .red left key value right) .red depth
  | black {left right : FLLRBNode K V} {color : FLLRBColor} {key : K} {value : V}
      {depth : Nat} : Balanced left color depth → Balanced right .black depth →
        Balanced (.node .black left key value right) .black (depth + 1)

variable {n left right : FLLRBNode K V} {color : FLLRBColor} {depth : Nat}

theorem Balanced.isRed (balanced : Balanced n color depth) : n.isRed = (color = .red) := by
  cases balanced <;> simp [FLLRBNode.isRed]

theorem Balanced.not_red (balanced : Balanced n .black depth) : n.isRed = false := by
  simpa using balanced.isRed

theorem Balanced.left_not_red (balanced : Balanced n .red depth) : n.left.isRed = false := by
  cases balanced with
  | red leftBalanced rightBalanced => exact leftBalanced.not_red

/-! ## The tree's own check -/

theorem check_of_balanced (balanced : Balanced n color depth) : n.check = .ok depth := by
  induction balanced with
  | empty => rfl
  | red leftBalanced rightBalanced leftChecked rightChecked =>
      simp [check, leftBalanced.not_red, rightBalanced.not_red, leftChecked, rightChecked, bind,
        Except.bind]
  | black leftBalanced rightBalanced leftChecked rightChecked =>
      simp [check, rightBalanced.not_red, leftChecked, rightChecked, bind, Except.bind]

theorem Balanced.eq_black (balanced : Balanced n color depth) (notRed : ¬n.isRed = true) :
    color = .black := by
  cases color with
  | red => simp [balanced.isRed] at notRed
  | black => rfl

theorem balanced_of_check (checked : n.check = .ok depth) : ∃ color, Balanced n color depth := by
  induction n generalizing depth with
  | empty =>
      cases checked
      exact ⟨.black, .empty⟩
  | node color left key value right leftIh rightIh =>
      simp only [check] at checked
      split at checked
      · cases checked
      · rename_i redRed
        split at checked
        · cases checked
        · rename_i rightRed
          cases leftChecked : left.check with
          | error failure => simp [leftChecked, bind, Except.bind] at checked
          | ok leftDepth =>
              cases rightChecked : right.check with
              | error failure => simp [leftChecked, rightChecked, bind, Except.bind] at checked
              | ok rightDepth =>
                  obtain ⟨leftColor, leftBalanced⟩ := leftIh leftChecked
                  obtain ⟨rightColor, rightBalanced⟩ := rightIh rightChecked
                  have rightBlack : rightColor = .black := rightBalanced.eq_black rightRed
                  by_cases depths : leftDepth = rightDepth
                  · subst rightBlack depths
                    cases color with
                    | red =>
                        have leftBlack : leftColor = .black :=
                          leftBalanced.eq_black fun red => redRed ⟨rfl, red⟩
                        subst leftBlack
                        have top : leftDepth = depth := by
                          simpa [leftChecked, rightChecked, bind, Except.bind] using checked
                        exact ⟨.red, top ▸ .red leftBalanced rightBalanced⟩
                    | black =>
                        have top : leftDepth + 1 = depth := by
                          simpa [leftChecked, rightChecked, bind, Except.bind] using checked
                        exact ⟨.black, top ▸ .black leftBalanced rightBalanced⟩
                  · simp [leftChecked, rightChecked, bind, Except.bind, depths] at checked

theorem Balanced.two_pow_le_count (balanced : Balanced n color depth) :
    2 ^ depth ≤ n.count + 1 := by
  induction balanced with
  | empty => simp [count]
  | red leftBalanced rightBalanced leftFits rightFits =>
      simp only [count]
      omega
  | black leftBalanced rightBalanced leftFits rightFits =>
      simp only [count, Nat.pow_succ]
      omega

/-- How many nodes the longest search visits. -/
def height : FLLRBNode K V → Nat
  | .empty => 0
  | .node _ left _ _ right => Nat.max left.height right.height + 1

theorem Balanced.height_le (balanced : Balanced n color depth) :
    n.height ≤ 2 * depth + if color = .red then 1 else 0 := by
  induction balanced with
  | empty => simp [height]
  | red leftBalanced rightBalanced leftLow rightLow =>
      simp only [height, Nat.max_def, reduceCtorEq, ↓reduceIte] at *
      split_ifs <;> omega
  | @black left right color key value depth leftBalanced rightBalanced leftLow rightLow =>
      have leftLoose : left.height ≤ 2 * depth + 1 := by
        split_ifs at leftLow <;> omega
      simp only [height, Nat.max_def, reduceCtorEq, ↓reduceIte] at *
      split_ifs <;> omega

/-! ## Moves keep the entries in order -/

theorem entries_flipped (n : FLLRBNode K V) : n.flipped.entries = n.entries := by
  cases n <;> rfl

theorem entries_withColor (n : FLLRBNode K V) (color : FLLRBColor) :
    (n.withColor color).entries = n.entries := by
  cases n <;> rfl

theorem entries_colorFlip (n : FLLRBNode K V) : n.colorFlip.entries = n.entries := by
  cases n <;> simp [colorFlip, entries, entries_flipped]

theorem exists_node_of_isRed (red : n.isRed = true) :
    ∃ left key value right, n = .node .red left key value right := by
  cases n with
  | empty => simp [FLLRBNode.isRed] at red
  | node color left key value right =>
      cases color with
      | red => exact ⟨left, key, value, right, rfl⟩
      | black => simp [FLLRBNode.isRed] at red

theorem entries_rotateLeft (red : n.right.isRed = true) : n.rotateLeft.entries = n.entries := by
  cases n with
  | empty => rfl
  | node color left key value right =>
      obtain ⟨inner, rightKey, rightValue, outer, rfl⟩ := exists_node_of_isRed red
      simp [rotateLeft, withLeft, withColor, FLLRBNode.left, entries]

theorem entries_rotateRight (red : n.left.isRed = true) : n.rotateRight.entries = n.entries := by
  cases n with
  | empty => rfl
  | node color left key value right =>
      obtain ⟨outer, leftKey, leftValue, inner, rfl⟩ := exists_node_of_isRed red
      simp [rotateRight, withRight, withColor, FLLRBNode.right, entries]

theorem entries_ite {condition : Prop} [Decidable condition] {moved kept : FLLRBNode K V}
    {held : List (K × V)} (move : condition → moved.entries = held) (keep : kept.entries = held) :
    (if condition then moved else kept).entries = held := by
  split_ifs with taken
  · exact move taken
  · exact keep

theorem entries_fixUp (n : FLLRBNode K V) : n.fixUp.entries = n.entries := by
  simp only [fixUp]
  have leaned : (if n.right.isRed && !n.left.isRed then n.rotateLeft else n).entries =
      n.entries :=
    entries_ite (fun taken => entries_rotateLeft (by simp at taken; exact taken.1)) rfl
  generalize (if n.right.isRed && !n.left.isRed then n.rotateLeft else n) = m at leaned ⊢
  have raised : (if m.left.isRed && m.left.left.isRed then m.rotateRight else m).entries =
      m.entries :=
    entries_ite (fun taken => entries_rotateRight (by simp at taken; exact taken.1)) rfl
  generalize (if m.left.isRed && m.left.left.isRed then m.rotateRight else m) = top at raised ⊢
  have same : top.entries = n.entries := raised.trans leaned
  exact entries_ite (fun _ => (entries_colorFlip top).trans same) same

/-! ## What `fixUp` does to each shape -/

section Shapes

variable {inner outer : FLLRBNode K V} {key held : K} {value stored : V}

theorem fixUp_self (leftCalm : left.isRed = true → left.left.isRed = false)
    (rightBlack : right.isRed = false) :
    fixUp (.node color left key value right) = .node color left key value right := by
  cases leftRed : left.isRed with
  | false => simp [fixUp, rightBlack, leftRed]
  | true => simp [fixUp, rightBlack, leftCalm leftRed]

theorem fixUp_rotateLeft (leftBlack : left.isRed = false) (outerBlack : outer.isRed = false) :
    fixUp (.node color left key value (.node .red inner held stored outer)) =
      .node color (.node .red left key value inner) held stored outer := by
  simp [fixUp, rotateLeft, withColor, leftBlack, outerBlack]

theorem fixUp_rotateRight (rightBlack : right.isRed = false) (outerRed : outer.isRed = true) :
    fixUp (.node color (.node .red outer held stored inner) key value right) =
      .node color.flipped outer.flipped held stored (.node .black inner key value right) := by
  simp [fixUp, rotateRight, withColor, colorFlip, rightBlack, outerRed]

theorem fixUp_colorFlip (leftRed : left.isRed = true) (leftCalm : left.left.isRed = false)
    (rightRed : right.isRed = true) :
    fixUp (.node color left key value right) =
      .node color.flipped left.flipped key value right.flipped := by
  simp [fixUp, colorFlip, leftRed, leftCalm, rightRed]

end Shapes

theorem Balanced.flipped_red (balanced : Balanced n .red depth) :
    Balanced n.flipped .black (depth + 1) := by
  cases balanced with
  | red leftBalanced rightBalanced => exact .black leftBalanced rightBalanced

/-- A balanced left child and a black right child are left as they are. -/
theorem fixUp_balanced {key : K} {value : V} {root : FLLRBColor} {leftDepth rightDepth : Nat}
    (leftBalanced : Balanced left color leftDepth)
    (rightBalanced : Balanced right .black rightDepth) :
    fixUp (.node root left key value right) = .node root left key value right := by
  refine fixUp_self (fun leftRed => ?_) rightBalanced.not_red
  have red : color = .red := by simpa [leftBalanced.isRed] using leftRed
  subst red
  exact leftBalanced.left_not_red

/-- Below a black root, over a black left child, any right child of the depth will do. -/
theorem fixUp_black (leftBalanced : Balanced left .black depth) {key : K} {value : V}
    (rightBalanced : Balanced right color depth) :
    Balanced (fixUp (.node .black left key value right)) .black (depth + 1) := by
  cases rightBalanced with
  | empty =>
      rw [fixUp_balanced leftBalanced .empty]
      exact .black leftBalanced .empty
  | red innerBalanced outerBalanced =>
      rw [fixUp_rotateLeft leftBalanced.not_red outerBalanced.not_red]
      exact .black (.red leftBalanced innerBalanced) outerBalanced
  | black innerBalanced outerBalanced =>
      rw [fixUp_balanced leftBalanced (.black innerBalanced outerBalanced)]
      exact .black leftBalanced (.black innerBalanced outerBalanced)

/-- Below a black root, over a red left child, the colors may move up. -/
theorem fixUp_black_red (leftBalanced : Balanced left .red depth) {key : K} {value : V}
    (rightBalanced : Balanced right color depth) :
    ∃ top, Balanced (fixUp (.node .black left key value right)) top (depth + 1) := by
  cases color with
  | black =>
      rw [fixUp_balanced leftBalanced rightBalanced]
      exact ⟨.black, .black leftBalanced rightBalanced⟩
  | red =>
      have leftRed : left.isRed = true := by simp [leftBalanced.isRed]
      have rightRed : right.isRed = true := by simp [rightBalanced.isRed]
      rw [fixUp_colorFlip leftRed leftBalanced.left_not_red rightRed]
      exact ⟨.red, .red leftBalanced.flipped_red rightBalanced.flipped_red⟩

/-! ## Insertion -/

/-- What an insertion leaves of a tree with a root of this color: below a red root
the left child may have become red. -/
inductive Grown : FLLRBColor → FLLRBNode K V → Nat → Prop
  | black {n : FLLRBNode K V} {color : FLLRBColor} {depth : Nat} :
      Balanced n color depth → Grown .black n depth
  | red {left right : FLLRBNode K V} {color : FLLRBColor} {key : K} {value : V} {depth : Nat} :
      Balanced left color depth → Balanced right .black depth →
        Grown .red (.node .red left key value right) depth

/-- The left child has grown. -/
theorem Grown.fixUp_left (leftGrown : Grown color left depth) {key : K} {value : V}
    (rightBalanced : Balanced right .black depth) :
    ∃ top, Balanced (fixUp (.node .black left key value right)) top (depth + 1) := by
  cases leftGrown with
  | black leftBalanced =>
      rw [fixUp_balanced leftBalanced rightBalanced]
      exact ⟨.black, .black leftBalanced rightBalanced⟩
  | @red outer inner outerColor held stored depth outerBalanced innerBalanced =>
      cases outerColor with
      | red =>
          rw [fixUp_rotateRight rightBalanced.not_red (by simp [outerBalanced.isRed])]
          exact ⟨.red, .red outerBalanced.flipped_red (.black innerBalanced rightBalanced)⟩
      | black =>
          rw [fixUp_balanced (.red outerBalanced innerBalanced) rightBalanced]
          exact ⟨.black, .black (.red outerBalanced innerBalanced) rightBalanced⟩

/-- The right child has grown, below a red root. -/
theorem Grown.fixUp_right_of_red (rightGrown : Grown .black right depth) {key : K} {value : V}
    (leftBalanced : Balanced left .black depth) :
    Grown .red (fixUp (.node .red left key value right)) depth := by
  cases rightGrown with
  | @black n rightColor depth rightBalanced =>
      cases rightBalanced with
      | empty =>
          rw [fixUp_balanced leftBalanced .empty]
          exact .red leftBalanced .empty
      | red innerBalanced outerBalanced =>
          rw [fixUp_rotateLeft leftBalanced.not_red outerBalanced.not_red]
          exact .red (.red leftBalanced innerBalanced) outerBalanced
      | black innerBalanced outerBalanced =>
          rw [fixUp_balanced leftBalanced (.black innerBalanced outerBalanced)]
          exact .red leftBalanced (.black innerBalanced outerBalanced)

theorem Balanced.blackened (balanced : Balanced n color depth) :
    ∃ top, Balanced (n.withColor .black) .black top := by
  cases balanced with
  | empty => exact ⟨_, .empty⟩
  | red leftBalanced rightBalanced => exact ⟨_, .black leftBalanced rightBalanced⟩
  | black leftBalanced rightBalanced => exact ⟨_, .black leftBalanced rightBalanced⟩

theorem Grown.blackened (grown : Grown color n depth) :
    ∃ top, Balanced (n.withColor .black) .black top := by
  cases grown with
  | black balanced => exact balanced.blackened
  | red leftBalanced rightBalanced => exact ⟨_, .black leftBalanced rightBalanced⟩

section Insertion

variable [LinearOrder K]

theorem insertKey_grown (aKey : K) (aValue : V) (balanced : Balanced n color depth) :
    Grown color (n.insertKey aKey aValue) depth := by
  induction balanced with
  | empty => exact .black (.red .empty .empty)
  | @red left right key value depth leftBalanced rightBalanced leftGrown rightGrown =>
      simp only [insertKey]
      split_ifs with less same
      · cases leftGrown with
        | black grown =>
            rw [fixUp_balanced grown rightBalanced]
            exact .red grown rightBalanced
      · rw [fixUp_balanced leftBalanced rightBalanced]
        exact .red leftBalanced rightBalanced
      · exact rightGrown.fixUp_right_of_red leftBalanced
  | @black left right color key value depth leftBalanced rightBalanced leftGrown rightGrown =>
      simp only [insertKey]
      split_ifs with less same
      · obtain ⟨top, grown⟩ := leftGrown.fixUp_left rightBalanced
        exact .black grown
      · rw [fixUp_balanced leftBalanced rightBalanced]
        exact .black (.black leftBalanced rightBalanced)
      · cases rightGrown with
        | black grown =>
            cases color with
            | black => exact .black (fixUp_black leftBalanced grown)
            | red =>
                obtain ⟨top, fixed⟩ := fixUp_black_red leftBalanced grown
                exact .black fixed

theorem entries_insertKey (aKey : K) (aValue : V) (sorted : SortedEntries.Sorted n.entries) :
    (n.insertKey aKey aValue).entries = SortedEntries.put aKey aValue n.entries := by
  induction n with
  | empty => rfl
  | node color left key value right leftIh rightIh =>
      obtain ⟨leftSorted, rightSorted, below, above⟩ := SortedEntries.sorted_append_cons.mp sorted
      rw [insertKey, entries_fixUp]
      split_ifs with less same
      · simp only [entries, leftIh leftSorted]
        exact (SortedEntries.put_append_of_lt aValue value _ _ less).symm
      · subst same
        simp only [entries]
        rw [SortedEntries.put_append_of_gt aValue _ below]
        simp [SortedEntries.put]
      · have greater : key < aKey := lt_of_le_of_ne (not_lt.mp less) (Ne.symm same)
        have belowKey : ∀ pair ∈ left.entries, pair.1 < aKey :=
          fun pair found => (below pair found).trans greater
        simp only [entries, rightIh rightSorted]
        rw [SortedEntries.put_append_of_gt aValue _ belowKey]
        simp [SortedEntries.put, same, less]

end Insertion

/-! ## Descending to the left -/

/-- The removal of one entry below this root may start here. -/
def Ready (n : FLLRBNode K V) : Prop :=
  n.isRed = true ∨ n.left.isRed = true

/-- What is left after a removal: the depth stays and a black root stays black. -/
def Removed (color : FLLRBColor) (depth : Nat) (n : FLLRBNode K V) : Prop :=
  ∃ top, Balanced n top depth ∧ (color = .black → top = .black)

/-- The black depth of a node over children of this depth. -/
def FLLRBColor.above : FLLRBColor → Nat → Nat
  | .red, depth => depth
  | .black, depth => depth + 1

theorem Balanced.node (leftBalanced : Balanced left .black depth)
    (rightBalanced : Balanced right .black depth) (key : K) (value : V) :
    Balanced (.node color left key value right) color (FLLRBColor.above color depth) := by
  cases color with
  | red => exact .red leftBalanced rightBalanced
  | black => exact .black leftBalanced rightBalanced

theorem Removed.of_black (removed : Removed .black depth n) : Balanced n .black depth := by
  obtain ⟨top, balanced, stays⟩ := removed
  exact stays rfl ▸ balanced

/-- The removal goes on in the left child. A replacement of the child's color and
depth gives back the tree's; one that a removal leaves does for a root that is ready. -/
inductive LeftStep (color : FLLRBColor) (depth : Nat) (ready : Prop) : FLLRBNode K V → Prop
  | intro {top : FLLRBColor} {left : FLLRBNode K V} {key : K} {value : V}
      {right : FLLRBNode K V} {leftColor : FLLRBColor} {leftDepth : Nat}
      (leftBalanced : Balanced left leftColor leftDepth) (lowers : ready → Ready left)
      (keeps : ∀ m, Balanced m leftColor leftDepth →
        Balanced (fixUp (.node top m key value right)) color depth)
      (shrinks : ready → ∀ m, Removed leftColor leftDepth m →
        Removed color depth (fixUp (.node top m key value right))) :
      LeftStep color depth ready (.node top left key value right)

section Moves

variable {a b outer : FLLRBNode K V} {key leftKey rightKey held : K}
  {value leftValue rightValue stored : V}

theorem moveRedLeft_flip (innerBlack : a.isRed = false) :
    moveRedLeft (.node color (.node .black left leftKey leftValue right) key value
        (.node .black a rightKey rightValue outer)) =
      .node color.flipped (.node .red left leftKey leftValue right) key value
        (.node .red a rightKey rightValue outer) := by
  simp [moveRedLeft, colorFlip, innerBlack]

theorem moveRedLeft_borrow :
    moveRedLeft (.node color (.node .black left leftKey leftValue right) key value
        (.node .black (.node .red a held stored b) rightKey rightValue outer)) =
      .node color (.node .black (.node .red left leftKey leftValue right) key value a)
        held stored (.node .black b rightKey rightValue outer) := by
  simp [moveRedLeft, colorFlip, rotateRight, rotateLeft, withColor]

theorem moveRedRight_flip (outerBlack : a.isRed = false) :
    moveRedRight (.node color (.node .black a leftKey leftValue right) key value
        (.node .black left rightKey rightValue outer)) =
      .node color.flipped (.node .red a leftKey leftValue right) key value
        (.node .red left rightKey rightValue outer) := by
  simp [moveRedRight, colorFlip, outerBlack]

theorem moveRedRight_borrow :
    moveRedRight (.node color (.node .black (.node .red a held stored b) leftKey leftValue right)
        key value (.node .black left rightKey rightValue outer)) =
      .node color (.node .black a held stored b) leftKey leftValue
        (.node .black right key value (.node .red left rightKey rightValue outer)) := by
  simp [moveRedRight, colorFlip, rotateRight, withColor]

end Moves

/-- Over black children the left one is entered as it is when it leans on a red
child, and else after it has been given a red root or a red left child. -/
theorem leftStep_of_black {key : K} {value : V} (leftBalanced : Balanced left .black depth)
    (rightBalanced : Balanced right .black depth) (more : left.isEmpty = false) :
    LeftStep color (FLLRBColor.above color depth) (Ready (.node color left key value right))
      (if !left.isRed && !left.left.isRed then (node color left key value right).moveRedLeft
        else .node color left key value right) := by
  have calm : left.isRed = false := leftBalanced.not_red
  cases leftBalanced with
  | empty => simp [isEmpty] at more
  | @black leftLeft leftRight leftColor leftKey leftValue depth llBalanced lrBalanced =>
      cases leftColor with
      | red =>
          have leans : leftLeft.isRed = true := by simp [llBalanced.isRed]
          simp only [left_node, leans, Bool.not_true, Bool.and_false, Bool.false_eq_true, ↓reduceIte]
          refine .intro (.black llBalanced lrBalanced) (fun _ => .inr leans) (fun m balanced => ?_)
            (fun _ m removed => ?_)
          · rw [fixUp_balanced balanced rightBalanced]
            exact balanced.node rightBalanced key value
          · rw [fixUp_balanced removed.of_black rightBalanced]
            exact ⟨color, removed.of_black.node rightBalanced key value, id⟩
      | black =>
          have upright : leftLeft.isRed = false := llBalanced.not_red
          simp only [isRed_node, left_node, upright, reduceCtorEq, decide_false, Bool.not_false,
            Bool.and_self, ↓reduceIte]
          cases rightBalanced with
          | @black inner outer innerColor rightKey rightValue _ innerBalanced outerBalanced =>
              cases innerColor with
              | black =>
                  rw [moveRedLeft_flip innerBalanced.not_red]
                  refine .intro (.red llBalanced lrBalanced) (fun _ => .inl rfl)
                    (fun m balanced => ?_) (fun ready m removed => ?_)
                  · rw [fixUp_colorFlip (by simp [balanced.isRed]) balanced.left_not_red rfl,
                      FLLRBColor.flipped_flipped]
                    exact balanced.flipped_red.node (.black innerBalanced outerBalanced) key value
                  · have rootRed : color = .red := by simpa [Ready] using ready
                    subst rootRed
                    obtain ⟨top, balanced, -⟩ := removed
                    cases top with
                    | black =>
                        exact ⟨.black, fixUp_black balanced (.red innerBalanced outerBalanced),
                          fun _ => rfl⟩
                    | red =>
                        obtain ⟨root, fixed⟩ : ∃ root,
                            Balanced (fixUp (.node .black m key value _)) root _ :=
                          fixUp_black_red balanced (.red innerBalanced outerBalanced)
                        exact ⟨root, fixed, fun black => by cases black⟩
              | red =>
                  cases innerBalanced with
                  | red aBalanced bBalanced =>
                      rw [moveRedLeft_borrow]
                      have newRight : Balanced (.node .black _ rightKey rightValue outer) .black _ :=
                        .black bBalanced outerBalanced
                      refine .intro (.black (.red llBalanced lrBalanced) aBalanced)
                        (fun _ => .inr rfl) (fun m balanced => ?_) (fun _ m removed => ?_)
                      · rw [fixUp_balanced balanced newRight]
                        exact balanced.node newRight _ _
                      · rw [fixUp_balanced removed.of_black newRight]
                        exact ⟨color, removed.of_black.node newRight _ _, id⟩

theorem leftStep {key : K} {value : V} {root : FLLRBColor}
    (balanced : Balanced (.node root left key value right) color depth)
    (more : left.isEmpty = false) :
    LeftStep color depth (Ready (.node root left key value right))
      (if !left.isRed && !left.left.isRed then (node root left key value right).moveRedLeft
        else .node root left key value right) := by
  cases balanced with
  | red leftBalanced rightBalanced => exact leftStep_of_black leftBalanced rightBalanced more
  | @black _ _ leftColor _ _ depth leftBalanced rightBalanced =>
      cases leftColor with
      | black => exact leftStep_of_black leftBalanced rightBalanced more
      | red =>
          have leftRed : left.isRed = true := by simp [leftBalanced.isRed]
          simp only [leftRed, Bool.not_true, Bool.false_and, Bool.false_eq_true, ↓reduceIte]
          refine .intro leftBalanced (fun _ => .inl leftRed) (fun m kept => ?_)
            (fun _ m removed => ?_)
          · rw [fixUp_balanced kept rightBalanced]
            exact .black kept rightBalanced
          · obtain ⟨top, kept, -⟩ := removed
            rw [fixUp_balanced kept rightBalanced]
            exact ⟨.black, .black kept rightBalanced, fun _ => rfl⟩

theorem entries_moveRedLeft (n : FLLRBNode K V) : n.moveRedLeft.entries = n.entries := by
  simp only [moveRedLeft]
  refine entries_ite (fun taken => ?_) (entries_colorFlip n)
  rw [entries_colorFlip, ← entries_colorFlip n]
  generalize n.colorFlip = m at taken ⊢
  cases m with
  | empty => rfl
  | node color left key value right =>
      simp only [right_node, withRight_node] at taken ⊢
      have rotated := entries_rotateRight taken
      cases right with
      | empty => simp [FLLRBNode.left, isRed] at taken
      | node rightColor inner rightKey rightValue outer =>
          obtain ⟨a, heldKey, heldValue, b, rfl⟩ := exists_node_of_isRed taken
          simp [rotateLeft, rotateRight, withColor, entries]

/-- What the left child borrows comes behind its own entries. -/
theorem entries_left_moveRedLeft (n : FLLRBNode K V) :
    ∃ borrowed, n.moveRedLeft.left.entries = n.left.entries ++ borrowed := by
  have flippedLeft : n.colorFlip.left.entries = n.left.entries := by
    cases n <;> simp [colorFlip, FLLRBNode.left, entries, entries_flipped]
  simp only [moveRedLeft]
  split
  · rename_i taken
    rw [← flippedLeft]
    generalize n.colorFlip = m at taken
    cases m with
    | empty => exact ⟨[], by simp [colorFlip, rotateLeft, withRight, FLLRBNode.left]⟩
    | node color left key value right =>
        simp only [right_node, withRight_node] at taken ⊢
        cases right with
        | empty => simp [FLLRBNode.left, isRed] at taken
        | node rightColor inner rightKey rightValue outer =>
            obtain ⟨a, heldKey, heldValue, b, rfl⟩ := exists_node_of_isRed taken
            exact ⟨(key, value) :: a.entries,
              by simp [rotateLeft, rotateRight, withColor, colorFlip, entries]⟩
  · exact ⟨[], by simp [flippedLeft]⟩

/-- The node in which the removal goes on to the left, with all that is known of it. -/
theorem exists_leftStep {key : K} {value : V} {root : FLLRBColor}
    (balanced : Balanced (.node root left key value right) color depth)
    (more : left.isEmpty = false) :
    ∃ m, (if !left.isRed && !left.left.isRed then (node root left key value right).moveRedLeft
        else .node root left key value right) = m ∧
      LeftStep color depth (Ready (.node root left key value right)) m ∧
      m.entries = (node root left key value right).entries ∧
      (∃ borrowed, m.left.entries = left.entries ++ borrowed) ∧
      m.left.count < (node root left key value right).count := by
  refine ⟨_, rfl, leftStep balanced more, ?_, ?_, ?_⟩
  · exact entries_ite (fun _ => entries_moveRedLeft _) rfl
  · split
    · exact entries_left_moveRedLeft (.node root left key value right)
    · exact ⟨[], by simp⟩
  · exact count_left_lt (count_ite (count_moveRedLeft _) (Nat.le_refl _))
      (by simp only [count]; omega)

theorem Ready.not_empty (ready : Ready n) : n.isEmpty = false := by
  cases n with
  | empty => simp [Ready, isRed, FLLRBNode.left] at ready
  | node color left key value right => rfl

theorem entries_eq_nil_iff : n.entries = [] ↔ n.isEmpty = true := by
  cases n <;> simp [entries, isEmpty]

theorem Ready.entries_ne_nil (ready : Ready n) : n.entries ≠ [] := by
  simp [entries_eq_nil_iff, ready.not_empty]

/-! ## The smallest entry -/

theorem min_eq_head? (n : FLLRBNode K V) : n.min = n.entries.head? := by
  induction n with
  | empty => rfl
  | node color left key value right leftIh rightIh =>
      cases left with
      | empty => simp [FLLRBNode.min, entries, isEmpty]
      | node leftColor inner leftKey leftValue outer =>
          rw [FLLRBNode.min, isEmpty_node, if_neg Bool.false_ne_true, leftIh]
          simp [entries]

theorem maxKey_eq_getLast? (n : FLLRBNode K V) :
    n.maxKey = n.entries.getLast?.map Prod.fst := by
  induction n with
  | empty => rfl
  | node color left key value right leftIh rightIh =>
      cases right with
      | empty => simp [maxKey, entries, isEmpty]
      | node rightColor inner rightKey rightValue outer =>
          have more : (node rightColor inner rightKey rightValue outer).entries ≠ [] := by
            simp [entries_eq_nil_iff]
          rw [maxKey, isEmpty_node, if_neg Bool.false_ne_true, rightIh]
          conv_rhs => rw [entries]
          rw [List.getLast?_append_of_ne_nil _ (List.cons_ne_nil _ _),
            List.getLast?_cons_of_ne_nil more]

theorem count_induction {motive : FLLRBNode K V → Prop}
    (step : ∀ n, (∀ m : FLLRBNode K V, m.count < n.count → motive m) → motive n)
    (n : FLLRBNode K V) : motive n :=
  (measure count).wf.induction n step

/-- `removeMin` drops the first entry. -/
theorem removeMin_removed (balanced : Balanced n color depth) (ready : Ready n) :
    Removed color depth n.removeMin ∧ n.removeMin.entries = n.entries.tail := by
  induction n using count_induction generalizing color depth with
  | step n ih =>
      cases n with
      | empty => simp [Ready, isRed, FLLRBNode.left] at ready
      | node root left key value right =>
          cases leftmost : left.isEmpty with
          | true =>
              rw [removeMin, if_pos leftmost]
              have leftEmpty : left = .empty := by cases left <;> simp_all [isEmpty]
              subst leftEmpty
              cases balanced with
              | red leftBalanced rightBalanced =>
                  cases leftBalanced with
                  | empty =>
                      cases rightBalanced with
                      | empty => exact ⟨⟨.black, .empty, fun _ => rfl⟩, rfl⟩
              | black leftBalanced rightBalanced => simp [Ready, isRed] at ready
          | false =>
              rw [removeMin, if_neg (by simp [leftmost])]
              obtain ⟨m, moved, step, same, -, smaller⟩ := exists_leftStep balanced leftmost
              simp only [moved]
              cases step with
              | intro leftBalanced lowers keeps shrinks =>
                  obtain ⟨removed, shorter⟩ := ih _ smaller leftBalanced (lowers ready)
                  refine ⟨shrinks ready _ removed, ?_⟩
                  rw [entries_fixUp, ← same]
                  simp only [withLeft_node, left_node, entries] at shorter ⊢
                  rw [shorter, List.tail_append_of_ne_nil (lowers ready).entries_ne_nil]

/-! ## Removal -/

section Removal

variable [LinearOrder K] {aKey : K}

theorem remove_of_lt {key : K} {value : V} (less : aKey < key)
    (more : left.isEmpty = false) :
    (node color left key value right).remove aKey =
      let n := if !left.isRed && !left.left.isRed then
          (node color left key value right).moveRedLeft
        else .node color left key value right
      fixUp (n.withLeft (n.left.remove aKey)) := by
  rw [remove, if_pos less]
  simp only [more, Bool.not_false, Bool.true_and]

theorem remove_leftmost {key : K} {value : V} (less : aKey < key)
    (leftBalanced : Balanced left color depth) (leftmost : left.isEmpty = true)
    (rightBalanced : Balanced right .black depth) {root : FLLRBColor} :
    (node root left key value right).remove aKey = .node root left key value right := by
  have leftEmpty : left = .empty := by cases left <;> simp_all [isEmpty]
  subst leftEmpty
  rw [remove, if_pos less]
  simp only [isEmpty, Bool.not_true, Bool.false_and, Bool.false_eq_true, ↓reduceIte,
    withLeft_node, left_node]
  rw [remove]
  exact fixUp_balanced leftBalanced rightBalanced

/-- Searching below the whole tree gives back a tree of the same color and depth,
whatever moves were made on the way. -/
theorem remove_below (balanced : Balanced n color depth)
    (below : ∀ pair ∈ n.entries, aKey < pair.1) :
    Balanced (n.remove aKey) color depth ∧ (n.remove aKey).entries = n.entries := by
  induction n using count_induction generalizing color depth with
  | step n ih =>
      cases n with
      | empty =>
          rw [remove]
          exact ⟨balanced, rfl⟩
      | node root left key value right =>
          have less : aKey < key := below (key, value) (by simp [entries])
          cases leftmost : left.isEmpty with
          | true =>
              have kept : (node root left key value right).remove aKey =
                  .node root left key value right := by
                cases balanced with
                | red leftBalanced rightBalanced =>
                    exact remove_leftmost less leftBalanced leftmost rightBalanced
                | black leftBalanced rightBalanced =>
                    exact remove_leftmost less leftBalanced leftmost rightBalanced
              rw [kept]
              exact ⟨balanced, rfl⟩
          | false =>
              obtain ⟨m, moved, step, same, -, smaller⟩ := exists_leftStep balanced leftmost
              rw [remove_of_lt less leftmost]
              simp only [moved]
              cases step with
              | @intro top inner _ _ _ _ _ leftBalanced lowers keeps shrinks =>
                  obtain ⟨kept, unchanged⟩ := ih inner smaller leftBalanced fun pair found =>
                    below pair (by rw [← same]; simp [entries, found])
                  refine ⟨keeps _ kept, ?_⟩
                  rw [entries_fixUp, ← same]
                  simp only [withLeft_node, left_node, entries] at unchanged ⊢
                  rw [unchanged]

/-- The removal once the node has been turned to the right. -/
def removeRight (aKey : K) (moved : FLLRBNode K V) : FLLRBNode K V :=
  if moved.holds aKey && moved.right.isEmpty then .empty
  else
    let n := if moved.holds aKey then moved.withSmallest else moved
    fixUp (n.withRight (n.right.remove aKey))

theorem remove_of_not_lt {key : K} {value : V} (notLess : ¬aKey < key) :
    (node color left key value right).remove aKey =
      let leaned := if left.isRed then (node color left key value right).rotateRight
        else .node color left key value right
      removeRight aKey
        (if !leaned.right.isEmpty && !leaned.right.isRed && !leaned.right.left.isRed then
          leaned.moveRedRight
        else leaned) := by
  rw [remove, if_neg notLess]
  rfl

/-- What a removal of `aKey` is to do below a root that is ready. -/
def RemovesKey (aKey : K) (color : FLLRBColor) (depth : Nat) (n : FLLRBNode K V) : Prop :=
  Removed color depth (n.remove aKey) ∧
    (n.remove aKey).entries = SortedEntries.remove aKey n.entries

/-- A removal that passes a node with a smaller key leaves it in place. -/
theorem removeRight_past (top : FLLRBColor) (left : FLLRBNode K V) {key : K} {value : V}
    (less : key < aKey) (sorted : SortedEntries.Sorted (node top left key value right).entries)
    (searched : (right.remove aKey).entries = SortedEntries.remove aKey right.entries) :
    removeRight aKey (.node top left key value right) =
        fixUp (.node top left key value (right.remove aKey)) ∧
      (node top left key value (right.remove aKey)).entries =
        SortedEntries.remove aKey (node top left key value right).entries := by
  obtain ⟨leftSorted, rightSorted, below, above⟩ := SortedEntries.sorted_append_cons.mp sorted
  have leftKept : SortedEntries.remove aKey left.entries = left.entries :=
    SortedEntries.remove_of_below fun pair found => (below pair found).trans less
  constructor
  · simp [removeRight, holds, less.ne']
  · simp only [entries]
    rw [SortedEntries.remove_append, leftKept,
      SortedEntries.remove_cons_of_ne value _ less.ne, searched]

theorem removeRight_eq (top : FLLRBColor) (left : FLLRBNode K V) {rightColor : FLLRBColor}
    {key : K} {value : V} {rightDepth : Nat}
    (rightBalanced : Balanced right rightColor rightDepth) (ready : Ready right)
    (sorted : SortedEntries.Sorted (node top left key value right).entries)
    (notLess : ¬aKey < key) (ih : RemovesKey aKey rightColor rightDepth right) :
    ∃ heldKey held m,
      removeRight aKey (.node top left key value right) = fixUp (.node top left heldKey held m) ∧
      Removed rightColor rightDepth m ∧
      (node top left heldKey held m).entries =
        SortedEntries.remove aKey (node top left key value right).entries := by
  obtain ⟨leftSorted, rightSorted, below, above⟩ := SortedEntries.sorted_append_cons.mp sorted
  have leftKept : SortedEntries.remove aKey left.entries = left.entries :=
    SortedEntries.remove_of_below fun pair found =>
      lt_of_lt_of_le (below pair found) (not_lt.mp notLess)
  by_cases same : aKey = key
  · subst same
    obtain ⟨removed, shorter⟩ := removeMin_removed rightBalanced ready
    obtain ⟨⟨heldKey, held⟩, rest, split⟩ := List.exists_cons_of_ne_nil ready.entries_ne_nil
    have smallest : right.min = some (heldKey, held) := by simp [min_eq_head?, split]
    have aboveRest : ∀ pair ∈ right.removeMin.entries, aKey < pair.1 := by
      intro pair found
      rw [shorter] at found
      exact above pair (List.mem_of_mem_tail found)
    obtain ⟨top', minBalanced, stays⟩ := removed
    obtain ⟨searched, unchanged⟩ := remove_below minBalanced aboveRest
    refine ⟨heldKey, held, right.removeMin.remove aKey, ?_, ⟨top', searched, stays⟩, ?_⟩
    · simp [removeRight, holds, ready.not_empty, withSmallest, smallest]
    · simp only [entries]
      rw [SortedEntries.remove_append, leftKept, SortedEntries.remove_cons_self,
        SortedEntries.remove_of_above above, unchanged, shorter, split, List.tail_cons]
  · have less : key < aKey := lt_of_le_of_ne (not_lt.mp notLess) (Ne.symm same)
    obtain ⟨passed, kept⟩ := removeRight_past top left less sorted ih.2
    exact ⟨key, value, right.remove aKey, passed, ih.1, kept⟩

/-- Below a black root over a red left child the removal turns right first. -/
theorem removesKey_red_left {key : K} {value : V}
    (leftBalanced : Balanced left .red depth) (rightBalanced : Balanced right .black depth)
    (sorted : SortedEntries.Sorted (node .black left key value right).entries)
    (notLess : ¬aKey < key)
    (ih : ∀ m : FLLRBNode K V, m.count < (node .black left key value right).count →
      ∀ {color : FLLRBColor} {depth : Nat}, Balanced m color depth → Ready m →
        SortedEntries.Sorted m.entries → RemovesKey aKey color depth m) :
    RemovesKey aKey .black (depth + 1) (.node .black left key value right) := by
  cases leftBalanced with
  | @red outer inner leftKey leftValue depth outerBalanced innerBalanced =>
      have turned : (node .black (.node .red outer leftKey leftValue inner) key value
          right).remove aKey =
            removeRight aKey (.node .black outer leftKey leftValue
              (.node .red inner key value right)) := by
        rw [remove_of_not_lt notLess]
        simp [rotateRight, withColor]
      have same : (node .black outer leftKey leftValue (.node .red inner key value right)).entries =
          (node .black (.node .red outer leftKey leftValue inner) key value right).entries := by
        simp [entries]
      rw [← same] at sorted
      have apart := SortedEntries.sorted_append_cons.mp sorted
      have leftLess : leftKey < key := apart.2.2.2 (key, value) (by simp [entries])
      obtain ⟨heldKey, held, m, fixed, removed, entriesEq⟩ :=
        removeRight_eq _ _ (.red innerBalanced rightBalanced) (.inl rfl) sorted
          (fun less => notLess (less.trans leftLess))
          (ih (.node .red inner key value right) (by simp only [count]; omega)
            (.red innerBalanced rightBalanced) (.inl rfl) apart.2.1)
      obtain ⟨top, balanced, -⟩ := removed
      unfold RemovesKey
      rw [turned, fixed, entries_fixUp, entriesEq, same]
      exact ⟨⟨.black, fixUp_black outerBalanced balanced, fun _ => rfl⟩, rfl⟩

/-- A black node over a red right child arises from the moves; its key is not
above the removed one. -/
theorem removesKey_red_right {key : K} {value : V} (leftBalanced : Balanced left .black depth)
    (rightBalanced : Balanced right .red depth)
    (sorted : SortedEntries.Sorted (node .black left key value right).entries)
    (notLess : ¬aKey < key) (searched : RemovesKey aKey .red depth right) :
    RemovesKey aKey .black (depth + 1) (.node .black left key value right) := by
  have rightRed : right.isRed = true := by simp [rightBalanced.isRed]
  obtain ⟨heldKey, held, m, fixed, ⟨top, balanced, -⟩, entriesEq⟩ :=
    removeRight_eq _ _ rightBalanced (.inl rightRed) sorted notLess searched
  have entered : (node .black left key value right).remove aKey =
      removeRight aKey (.node .black left key value right) := by
    rw [remove_of_not_lt notLess]
    simp [leftBalanced.not_red, rightRed]
  unfold RemovesKey
  rw [entered, fixed, entries_fixUp, entriesEq]
  exact ⟨⟨.black, fixUp_black leftBalanced balanced, fun _ => rfl⟩, rfl⟩

/-- Below a red root the removal goes to a right child that is ready, is made red
together with the left one, or takes the root over from it. -/
theorem removesKey_right {key : K} {value : V}
    (leftBalanced : Balanced left .black depth) (rightBalanced : Balanced right .black depth)
    (sorted : SortedEntries.Sorted (node .red left key value right).entries)
    (notLess : ¬aKey < key)
    (ih : ∀ m : FLLRBNode K V, m.count < (node .red left key value right).count →
      ∀ {color : FLLRBColor} {depth : Nat}, Balanced m color depth → Ready m →
        SortedEntries.Sorted m.entries → RemovesKey aKey color depth m) :
    RemovesKey aKey .red depth (.node .red left key value right) := by
  obtain ⟨leftSorted, rightSorted, below, above⟩ := SortedEntries.sorted_append_cons.mp sorted
  have upright : left.isRed = false := leftBalanced.not_red
  unfold RemovesKey
  rw [remove_of_not_lt notLess]
  simp only [upright, Bool.false_eq_true, ↓reduceIte, right_node]
  cases rightBalanced with
  | empty =>
      cases leftBalanced with
      | empty =>
          by_cases same : aKey = key
          · subst same
            refine ⟨⟨.black, ?_, fun _ => rfl⟩, ?_⟩
            · simpa [removeRight, holds, isEmpty] using Balanced.empty
            · simp [removeRight, holds, isEmpty, entries, SortedEntries.remove]
          · have kept : removeRight aKey (node .red (.empty : FLLRBNode K V) key value .empty) =
                .node .red .empty key value .empty := by
              simp [removeRight, holds, isEmpty, same, remove, fixUp, isRed]
            simp only [isEmpty, Bool.not_true, Bool.false_and, Bool.false_eq_true, ↓reduceIte, kept]
            exact ⟨⟨.red, .red .empty .empty, id⟩,
              by simp [entries, SortedEntries.remove, Ne.symm same]⟩
  | @black inner outer innerColor rightKey rightValue depth innerBalanced outerBalanced =>
      have balancedRight : Balanced (.node .black inner rightKey rightValue outer) .black
          (depth + 1) := .black innerBalanced outerBalanced
      cases innerColor with
      | red =>
          have leans : inner.isRed = true := by simp [innerBalanced.isRed]
          simp only [left_node, leans, Bool.not_true, Bool.and_false, Bool.false_eq_true,
            ↓reduceIte]
          obtain ⟨heldKey, held, m, fixed, removed, entriesEq⟩ :=
            removeRight_eq _ _ balancedRight (.inr leans) sorted notLess
              (ih _ (by simp only [count]; omega) balancedRight (.inr leans) rightSorted)
          rw [fixed, entries_fixUp, entriesEq, fixUp_balanced leftBalanced removed.of_black]
          exact ⟨⟨.red, .red leftBalanced removed.of_black, id⟩, rfl⟩
      | black =>
          have innerBlack : inner.isRed = false := innerBalanced.not_red
          simp only [isEmpty_node, isRed_node, left_node, innerBlack, reduceCtorEq, decide_false,
            Bool.not_false, Bool.and_self, ↓reduceIte]
          have redRight : Balanced (.node .red inner rightKey rightValue outer) .red depth :=
            .red innerBalanced outerBalanced
          have searched : RemovesKey aKey .red depth (.node .red inner rightKey rightValue outer) :=
            ih _ (by simp only [count]; omega) redRight (.inl rfl) rightSorted
          cases leftBalanced with
          | @black a leftRight outerColor leftKey leftValue _ aBalanced leftRightBalanced =>
              cases outerColor with
              | black =>
                  rw [moveRedRight_flip aBalanced.not_red]
                  obtain ⟨heldKey, held, m, fixed, ⟨top, balanced, -⟩, entriesEq⟩ :=
                    removeRight_eq .black (.node .red a leftKey leftValue leftRight) redRight
                      (.inl rfl) sorted notLess searched
                  rw [FLLRBColor.flipped_red, fixed, entries_fixUp, entriesEq]
                  obtain ⟨root, restored⟩ : ∃ root,
                      Balanced (fixUp (.node .black _ heldKey held m)) root (depth + 1) :=
                    fixUp_black_red (.red aBalanced leftRightBalanced) balanced
                  exact ⟨⟨root, restored, fun black => by cases black⟩, rfl⟩
              | red =>
                  cases aBalanced with
                  | @red outerLeft outerRight heldKey stored _ olBalanced orBalanced =>
                      rw [moveRedRight_borrow]
                      have same : (node .red (.node .black outerLeft heldKey stored outerRight)
                          leftKey leftValue (.node .black leftRight key value
                            (.node .red inner rightKey rightValue outer))).entries =
                          (node .red (.node .black (.node .red outerLeft heldKey stored outerRight)
                            leftKey leftValue leftRight) key value
                              (.node .black inner rightKey rightValue outer)).entries := by
                        simp [entries]
                      rw [← same] at sorted ⊢
                      have apart := SortedEntries.sorted_append_cons.mp sorted
                      have leftLess : leftKey < aKey := lt_of_lt_of_le
                        (apart.2.2.2 (key, value) (by simp [entries])) (not_lt.mp notLess)
                      obtain ⟨removed, shorter⟩ := removesKey_red_right leftRightBalanced redRight
                        apart.2.1 notLess searched
                      obtain ⟨passed, kept⟩ := removeRight_past _ _ leftLess sorted shorter
                      have newLeft : Balanced (.node .black outerLeft heldKey stored outerRight)
                          .black (depth + 1) := .black olBalanced orBalanced
                      rw [passed, entries_fixUp, kept,
                        fixUp_balanced newLeft removed.of_black]
                      exact ⟨⟨.red, .red newLeft removed.of_black, id⟩, rfl⟩

/-- A removal started at a root that is red, or leans on a red child. -/
theorem remove_removesKey (balanced : Balanced n color depth) (ready : Ready n)
    (sorted : SortedEntries.Sorted n.entries) : RemovesKey aKey color depth n := by
  induction n using count_induction generalizing color depth with
  | step n ih =>
      cases n with
      | empty => simp [Ready, isRed, FLLRBNode.left] at ready
      | node root left key value right =>
          have apart := SortedEntries.sorted_append_cons.mp sorted
          by_cases less : aKey < key
          · have absent : ∀ pair ∈ (key, value) :: right.entries, aKey < pair.1 := by
              intro pair found
              rcases List.mem_cons.mp found with same | later
              · simpa [same] using less
              · exact less.trans (apart.2.2.2 pair later)
            cases leftmost : left.isEmpty with
            | true =>
                have leftEmpty : left = .empty := by cases left <;> simp_all [isEmpty]
                subst leftEmpty
                obtain ⟨searched, unchanged⟩ := remove_below balanced absent
                refine ⟨⟨color, searched, id⟩, ?_⟩
                rw [unchanged]
                exact (SortedEntries.remove_of_above absent).symm
            | false =>
                obtain ⟨m, moved, step, same, ⟨borrowed, longer⟩, smaller⟩ :=
                  exists_leftStep balanced leftmost
                unfold RemovesKey
                rw [remove_of_lt less leftmost]
                simp only [moved]
                cases step with
                | @intro top inner heldKey held outer _ _ leftBalanced lowers keeps shrinks =>
                    rw [← same] at sorted ⊢
                    have innerSorted := (SortedEntries.sorted_append_cons.mp sorted).1
                    obtain ⟨removed, shorter⟩ :=
                      ih inner smaller leftBalanced (lowers ready) innerSorted
                    have behind : borrowed ++ (heldKey, held) :: outer.entries =
                        (key, value) :: right.entries := by
                      simp only [entries, left_node] at same longer
                      rw [longer, List.append_assoc] at same
                      exact List.append_cancel_left same
                    have aboveRest : ∀ pair ∈ (heldKey, held) :: outer.entries, aKey < pair.1 :=
                      fun pair found => absent pair
                        (behind ▸ List.mem_append_right borrowed found)
                    refine ⟨shrinks ready _ removed, ?_⟩
                    rw [entries_fixUp]
                    simp only [withLeft_node, left_node, entries] at shorter ⊢
                    rw [shorter, SortedEntries.remove_append,
                      SortedEntries.remove_of_above aboveRest]
          · cases balanced with
            | red leftBalanced rightBalanced =>
                exact removesKey_right leftBalanced rightBalanced sorted less ih
            | @black _ _ leftColor _ _ _ leftBalanced rightBalanced =>
                have leans : left.isRed = true := by simpa [Ready, isRed] using ready
                have leftRed : leftColor = .red := by simpa [leftBalanced.isRed] using leans
                subst leftRed
                exact removesKey_red_left leftBalanced rightBalanced sorted less ih

end Removal

end PicksOnMap.Source.FLLRBNode
