import PicksOnMap.Guarantees.BalancedTree
import PicksOnMap.Source.SortedDictionary

/-!
# The tree dictionary holds sorted entries

Source pin: Pods/FirebaseDatabase, FTreeSortedDictionary.m:38-153.

`removeKey:` enters the root as it is, whereas the removal below it needs a root
that is red or leans on a red child. No step reads the color of its own root
and each passes it on or toggles it, so that a black root is removed from as a
red one is (`remove_flipped`); the last step paints the root black.
-/
namespace PicksOnMap.Source

open Support

variable {K V : Type*}

namespace FLLRBNode

/-! ## The root's own color is only passed on -/

@[simp] theorem left_flipped (n : FLLRBNode K V) : n.flipped.left = n.left := by
  cases n <;> rfl

@[simp] theorem right_flipped (n : FLLRBNode K V) : n.flipped.right = n.right := by
  cases n <;> rfl

@[simp] theorem withColor_flipped (n : FLLRBNode K V) (color : FLLRBColor) :
    n.flipped.withColor color = n.withColor color := by
  cases n <;> rfl

theorem flipped_flipped (n : FLLRBNode K V) : n.flipped.flipped = n := by
  cases n <;> simp [flipped]

theorem withLeft_flipped (n m : FLLRBNode K V) :
    n.flipped.withLeft m = (n.withLeft m).flipped := by
  cases n <;> rfl

theorem withRight_flipped (n m : FLLRBNode K V) :
    n.flipped.withRight m = (n.withRight m).flipped := by
  cases n <;> rfl

theorem rotateLeft_flipped (n : FLLRBNode K V) : n.flipped.rotateLeft = n.rotateLeft.flipped := by
  cases n with
  | empty => rfl
  | node color left key value right => cases right <;> rfl

theorem rotateRight_flipped (n : FLLRBNode K V) :
    n.flipped.rotateRight = n.rotateRight.flipped := by
  cases n with
  | empty => rfl
  | node color left key value right => cases left <;> rfl

theorem colorFlip_flipped (n : FLLRBNode K V) : n.flipped.colorFlip = n.colorFlip.flipped := by
  cases n <;> rfl

theorem fixUp_flipped (n : FLLRBNode K V) : n.flipped.fixUp = n.fixUp.flipped := by
  simp only [fixUp, left_flipped, right_flipped, rotateLeft_flipped, ← apply_ite flipped,
    rotateRight_flipped, colorFlip_flipped]

theorem moveRedLeft_flipped (n : FLLRBNode K V) :
    n.flipped.moveRedLeft = n.moveRedLeft.flipped := by
  simp only [moveRedLeft, colorFlip_flipped, right_flipped, withRight_flipped,
    rotateLeft_flipped, ← apply_ite flipped]

theorem moveRedRight_flipped (n : FLLRBNode K V) :
    n.flipped.moveRedRight = n.moveRedRight.flipped := by
  simp only [moveRedRight, colorFlip_flipped, left_flipped, rotateRight_flipped,
    ← apply_ite flipped]

theorem withSmallest_flipped (n : FLLRBNode K V) :
    n.flipped.withSmallest = n.withSmallest.flipped := by
  cases n with
  | empty => rfl
  | node color left key value right =>
      simp only [flipped_node, withSmallest]
      cases right.min <;> rfl

variable [LinearOrder K]

theorem holds_flipped (aKey : K) (n : FLLRBNode K V) : n.flipped.holds aKey = n.holds aKey := by
  cases n <;> rfl

theorem removeRight_flipped (aKey : K) (n : FLLRBNode K V) :
    removeRight aKey n.flipped = (removeRight aKey n).flipped := by
  simp only [removeRight, holds_flipped, right_flipped, withSmallest_flipped,
    ← apply_ite flipped, withRight_flipped, fixUp_flipped]
  split
  · rfl
  · rfl

theorem remove_flipped (aKey : K) (n : FLLRBNode K V) :
    n.flipped.remove aKey = (n.remove aKey).flipped := by
  cases n with
  | empty => simp [flipped, remove]
  | node color left key value right =>
      by_cases less : aKey < key
      · rw [flipped_node, remove, remove, if_pos less, if_pos less]
        simp only [← flipped_node, moveRedLeft_flipped, ← apply_ite flipped, left_flipped,
          withLeft_flipped, fixUp_flipped]
      · rw [flipped_node, remove_of_not_lt less, remove_of_not_lt less]
        simp only [← flipped_node, rotateRight_flipped, ← apply_ite flipped, right_flipped,
          moveRedRight_flipped, removeRight_flipped]

end FLLRBNode

namespace FTreeSortedDictionary

open FLLRBNode

/-- What the tree's class comment promises, as the tree's own check decides it. -/
structure Valid [LinearOrder K] (dict : FTreeSortedDictionary K V) : Prop where
  sorted : SortedEntries.Sorted dict.root.entries
  rootBlack : dict.root.isRed = false
  checked : ∃ blackDepth, dict.root.check = .ok blackDepth

variable [LinearOrder K] {dict : FTreeSortedDictionary K V}

theorem valid_iff :
    dict.Valid ↔ SortedEntries.Sorted dict.root.entries ∧ ∃ depth, Balanced dict.root .black depth := by
  constructor
  · rintro ⟨sorted, rootBlack, depth, checked⟩
    obtain ⟨color, balanced⟩ := balanced_of_check checked
    have black : color = .black := balanced.eq_black (by simp [rootBlack])
    exact ⟨sorted, depth, black ▸ balanced⟩
  · rintro ⟨sorted, depth, balanced⟩
    exact ⟨sorted, balanced.not_red, depth, check_of_balanced balanced⟩

/-! ## Look-ups -/

theorem getFrom_eq (key : K) {n : FLLRBNode K V} (sorted : SortedEntries.Sorted n.entries) :
    getFrom key n = SortedEntries.get? key n.entries := by
  induction n with
  | empty => rfl
  | node color left held value right leftIh rightIh =>
      obtain ⟨leftSorted, rightSorted, below, above⟩ := SortedEntries.sorted_append_cons.mp sorted
      simp only [getFrom, entries]
      split_ifs with same less
      · subst same
        rw [SortedEntries.get?_append_of_gt _ below]
        simp [SortedEntries.get?]
      · rw [leftIh leftSorted, SortedEntries.get?_append_of_lt value _ above less]
      · have greater : held < key := lt_of_le_of_ne (not_lt.mp less) (Ne.symm same)
        rw [rightIh rightSorted, SortedEntries.get?_append_of_gt _
          fun pair found => (below pair found).trans greater]
        simp [SortedEntries.get?, same]

theorem get_eq (valid : dict.Valid) (key : K) :
    dict.get key = SortedEntries.get? key dict.root.entries :=
  getFrom_eq key valid.sorted

/-! ## Updates -/

theorem insertKey_valid (valid : dict.Valid) (aKey : K) (aValue : V) :
    (dict.insertKey aKey aValue).Valid ∧
      (dict.insertKey aKey aValue).root.entries =
        SortedEntries.put aKey aValue dict.root.entries := by
  obtain ⟨sorted, depth, balanced⟩ := valid_iff.mp valid
  obtain ⟨top, blackened⟩ := (insertKey_grown aKey aValue balanced).blackened
  have same : (dict.insertKey aKey aValue).root.entries =
      SortedEntries.put aKey aValue dict.root.entries := by
    rw [insertKey, entries_withColor, entries_insertKey aKey aValue sorted]
  refine ⟨valid_iff.mpr ⟨?_, top, blackened⟩, same⟩
  rw [same]
  exact SortedEntries.put_sorted aKey aValue sorted

/-- Below a black root the removal does what it does below a red one. -/
theorem remove_black {n : FLLRBNode K V} {depth : Nat} (aKey : K)
    (balanced : Balanced n .black depth) (sorted : SortedEntries.Sorted n.entries) :
    (∃ top, Balanced ((n.remove aKey).withColor .black) .black top) ∧
      (n.remove aKey).entries = SortedEntries.remove aKey n.entries := by
  cases balanced with
  | empty =>
      rw [FLLRBNode.remove]
      exact ⟨⟨0, .empty⟩, rfl⟩
  | @black left right leftColor key value depth leftBalanced rightBalanced =>
      cases leftColor with
      | red =>
          have leans : left.isRed = true := by simp [leftBalanced.isRed]
          obtain ⟨⟨top, kept, -⟩, shorter⟩ :=
            remove_removesKey (.black leftBalanced rightBalanced) (.inr leans) sorted
          exact ⟨kept.blackened, shorter⟩
      | black =>
          obtain ⟨⟨top, kept, -⟩, shorter⟩ :=
            remove_removesKey (.red leftBalanced rightBalanced) (.inl rfl) sorted
          have toggled : (node .black left key value right).remove aKey =
              ((node .red left key value right).remove aKey).flipped :=
            remove_flipped aKey (.node .red left key value right)
          rw [toggled, withColor_flipped, entries_flipped]
          exact ⟨kept.blackened, shorter⟩

theorem removeKey_valid (valid : dict.Valid) (aKey : K) :
    (dict.removeKey aKey).Valid ∧
      (dict.removeKey aKey).root.entries = SortedEntries.remove aKey dict.root.entries := by
  obtain ⟨sorted, depth, balanced⟩ := valid_iff.mp valid
  unfold removeKey contains
  split
  · obtain ⟨⟨top, blackened⟩, shorter⟩ := remove_black aKey balanced sorted
    have same : ((dict.root.remove aKey).withColor .black).entries =
        SortedEntries.remove aKey dict.root.entries := by
      rw [entries_withColor, shorter]
    refine ⟨valid_iff.mpr ⟨?_, top, blackened⟩, same⟩
    rw [same]
    exact SortedEntries.remove_sorted aKey sorted
  · rename_i absent
    refine ⟨valid, (SortedEntries.remove_of_absent fun pair found same => absent ?_).symm⟩
    rw [get_eq valid, ← same, (SortedEntries.mem_iff_get? sorted pair.1 pair.2).mp found]
    rfl

/-! ## The predecessor -/

theorem getPredecessorKeyFrom_eq (key : K) (rightParent : Option K) {n : FLLRBNode K V}
    (sorted : SortedEntries.Sorted n.entries) :
    getPredecessorKeyFrom key rightParent n =
      match SortedEntries.get? key n.entries with
      | some _ => .ok ((SortedEntries.predecessor key n.entries).or rightParent)
      | none => .error .nonexistentKey := by
  induction n generalizing rightParent with
  | empty => rfl
  | node color left held value right leftIh rightIh =>
      obtain ⟨leftSorted, rightSorted, below, above⟩ := SortedEntries.sorted_append_cons.mp sorted
      have together : (node color left held value right).entries =
          left.entries ++ (held, value) :: right.entries := rfl
      unfold getPredecessorKeyFrom
      rw [together]
      split
      · rename_i same
        subst same
        have found : SortedEntries.get? key (left.entries ++ (key, value) :: right.entries) =
            some value := by
          rw [SortedEntries.get?_append_of_gt _ below]
          simp [SortedEntries.get?]
        rw [found]
        unfold SortedEntries.predecessor
        rw [SortedEntries.below_append_of_le value _ above le_rfl,
          SortedEntries.below_of_all below]
        cases left with
        | empty => rfl
        | node leftColor inner leftKey leftValue outer =>
            rw [isEmpty_node, if_neg Bool.false_ne_true, maxKey_eq_getLast?]
            have more : (node leftColor inner leftKey leftValue outer).entries ≠ [] := by
              simp [entries_eq_nil_iff]
            obtain ⟨last, ends⟩ := Option.isSome_iff_exists.mp (List.getLast?_isSome.mpr more)
            simp [ends]
      · rename_i same
        split
        · rename_i less
          rw [leftIh rightParent leftSorted, SortedEntries.get?_append_of_lt value _ above less]
          unfold SortedEntries.predecessor
          rw [SortedEntries.below_append_of_le value _ above less.le]
        · rename_i less
          have greater : held < key := lt_of_le_of_ne (not_lt.mp less) (Ne.symm same)
          rw [rightIh (some held) rightSorted, SortedEntries.get?_append_of_gt _
            fun pair found => (below pair found).trans greater]
          have skipped : SortedEntries.get? key ((held, value) :: right.entries) =
              SortedEntries.get? key right.entries := by
            simp [SortedEntries.get?, same]
          unfold SortedEntries.predecessor
          rw [skipped, SortedEntries.below_append_of_gt value _ below greater]
          cases (SortedEntries.below key right.entries) with
          | nil => simp
          | cons first rest => simp [List.getLast?_cons]

/-! ## Traversals -/

omit [LinearOrder K] in
/-- A traversal is the enumeration of the entries, cut where the action stops it. -/
theorem enumerateEntries_append {σ : Type*} (action : K → V → σ → Bool × σ)
    (n : FLLRBNode K V) (rest : List (K × V)) (seen : σ) :
    FImmutableSortedDictionary.enumerateEntries action (n.entries ++ rest) seen =
      match n.inorderTraversal action seen with
      | (true, seen) => seen
      | (false, seen) => FImmutableSortedDictionary.enumerateEntries action rest seen := by
  induction n generalizing rest seen with
  | empty => rfl
  | node color left key value right leftIh rightIh =>
      simp only [entries, List.append_assoc, List.cons_append, inorderTraversal]
      rw [leftIh]
      rcases left.inorderTraversal action seen with ⟨stopped, seen⟩
      cases stopped with
      | true => rfl
      | false =>
          simp only [FImmutableSortedDictionary.enumerateEntries]
          rcases action key value seen with ⟨stopped, seen⟩
          cases stopped with
          | true => rfl
          | false => exact rightIh rest seen

omit [LinearOrder K] in
theorem enumerateEntries_reverse_append {σ : Type*} (action : K → V → σ → Bool × σ)
    (n : FLLRBNode K V) (rest : List (K × V)) (seen : σ) :
    FImmutableSortedDictionary.enumerateEntries action (n.entries.reverse ++ rest) seen =
      match n.reverseTraversal action seen with
      | (true, seen) => seen
      | (false, seen) => FImmutableSortedDictionary.enumerateEntries action rest seen := by
  induction n generalizing rest seen with
  | empty => rfl
  | node color left key value right leftIh rightIh =>
      have reversed : (node color left key value right).entries.reverse ++ rest =
          right.entries.reverse ++ (key, value) :: (left.entries.reverse ++ rest) := by
        simp [entries]
      rw [reversed, rightIh]
      simp only [reverseTraversal]
      rcases right.reverseTraversal action seen with ⟨stopped, seen⟩
      cases stopped with
      | true => rfl
      | false =>
          simp only [FImmutableSortedDictionary.enumerateEntries]
          rcases action key value seen with ⟨stopped, seen⟩
          cases stopped with
          | true => rfl
          | false => exact leftIh rest seen

omit [LinearOrder K] in
theorem traversal_eq {σ : Type*} (reverse : Bool) (block : K → V → σ → Bool × σ) (seen : σ) :
    FImmutableSortedDictionary.enumerateKeysAndObjectsReverse reverse block (.tree dict) seen =
      FImmutableSortedDictionary.enumerateEntries block
        (if reverse then dict.root.entries.reverse else dict.root.entries) seen := by
  have forward := enumerateEntries_append block dict.root [] seen
  have backward := enumerateEntries_reverse_append block dict.root [] seen
  rw [List.append_nil] at forward backward
  simp only [FImmutableSortedDictionary.enumerateKeysAndObjectsReverse]
  cases reverse with
  | true =>
      simp only [↓reduceIte, backward]
      rcases dict.root.reverseTraversal block seen with ⟨stopped, seen⟩
      cases stopped <;> rfl
  | false =>
      simp only [Bool.false_eq_true, ↓reduceIte, forward]
      rcases dict.root.inorderTraversal block seen with ⟨stopped, seen⟩
      cases stopped <;> rfl

omit [LinearOrder K] in
theorem count_eq_length (n : FLLRBNode K V) : n.count = n.entries.length := by
  induction n with
  | empty => rfl
  | node color left key value right leftIh rightIh =>
      simp only [count, entries, List.length_append, List.length_cons]
      omega

/-- The depth bound `checkMaxDepth` tests, and with it the length of every search. -/
theorem Valid.depth (valid : dict.Valid) :
    dict.root.checkMaxDepth = .ok true ∧
      dict.root.height ≤ 2 * Nat.log2 (dict.root.count + 1) := by
  obtain ⟨sorted, depth, balanced⟩ := valid_iff.mp valid
  have full := balanced.two_pow_le_count
  constructor
  · simp [checkMaxDepth, check_of_balanced balanced, bind, Except.bind, full]
  · have low := balanced.height_le
    have logs : depth ≤ Nat.log2 (dict.root.count + 1) :=
      (Nat.le_log2 (Nat.succ_ne_zero _)).mpr full
    simp only [reduceCtorEq, ↓reduceIte] at low
    omega

end FTreeSortedDictionary

end PicksOnMap.Source
