import PicksOnMap.Guarantees.SortedTree
import Mathlib.Data.Nat.Bitwise

/-!
# A dictionary is built into a valid tree

Source pin: Pods/FirebaseDatabase, FTreeSortedDictionary.m:155-323.

The digits of the entry count in base {1,2} are the numbers of runs of each
length 2^i, the longest run last in key order and built first. Every run is a
black node, or a black and a red one, over perfect trees of black depth i; the
shorter runs hang on the left. The depth of the whole is the number of digits.
-/
namespace PicksOnMap.Source.FTreeSortedDictionary

open Support FLLRBNode

variable {K V : Type*}

/-! ## Runs of the sorted pairs -/

def slice (keyList : List (K × V)) (start length : Nat) : List (K × V) :=
  (keyList.drop start).take length

theorem slice_cons (keyList : List (K × V)) (start length : Nat)
    (inside : start < keyList.length) :
    ∃ pair, objectAt keyList start = .ok pair ∧
      slice keyList start (length + 1) = pair :: slice keyList (start + 1) length := by
  refine ⟨keyList[start], by simp [objectAt, inside], ?_⟩
  unfold slice
  rw [List.drop_eq_getElem_cons inside, List.take_succ_cons]

theorem slice_append (keyList : List (K × V)) (start first second : Nat) :
    slice keyList start (first + second) =
      slice keyList start first ++ slice keyList (start + first) second := by
  unfold slice
  rw [List.take_add, List.drop_drop]

theorem two_pow_succ_sub_one (depth : Nat) :
    2 ^ (depth + 1) - 1 = (2 ^ depth - 1) + 1 + (2 ^ depth - 1) := by
  have positive := Nat.two_pow_pos depth
  rw [Nat.pow_succ]
  omega

theorem buildBalancedTree_zero (keyList : List (K × V)) (start : Nat) :
    buildBalancedTree keyList start 0 = .ok .empty := by
  rw [buildBalancedTree]
  simp

/-- A run of 2^depth - 1 pairs makes a perfect black tree. -/
theorem buildBalancedTree_perfect (keyList : List (K × V)) (depth start : Nat)
    (inside : start + (2 ^ depth - 1) ≤ keyList.length) :
    ∃ tree, buildBalancedTree keyList start (2 ^ depth - 1) = .ok tree ∧
      Balanced tree .black depth ∧ tree.entries = slice keyList start (2 ^ depth - 1) := by
  induction depth generalizing start with
  | zero =>
      exact ⟨.empty, buildBalancedTree_zero keyList start, .empty, by simp [slice, entries]⟩
  | succ depth ih =>
      rw [two_pow_succ_sub_one] at inside ⊢
      have bounded : Nat.min (keyList.length - start) ((2 ^ depth - 1) + 1 + (2 ^ depth - 1)) =
          (2 ^ depth - 1) + 1 + (2 ^ depth - 1) := by
        apply Nat.min_eq_right
        omega
      obtain ⟨pair, object, rest⟩ := slice_cons keyList (start + (2 ^ depth - 1))
        (2 ^ depth - 1) (by omega)
      have split : slice keyList start ((2 ^ depth - 1) + 1 + (2 ^ depth - 1)) =
          slice keyList start (2 ^ depth - 1) ++
            pair :: slice keyList (start + (2 ^ depth - 1) + 1) (2 ^ depth - 1) := by
        rw [Nat.add_assoc, Nat.add_comm 1, slice_append, rest]
      obtain ⟨left, leftBuilt, leftBalanced, leftEntries⟩ := ih start (by omega)
      obtain ⟨right, rightBuilt, rightBalanced, rightEntries⟩ :=
        ih (start + (2 ^ depth - 1) + 1) (by omega)
      refine ⟨.node .black left pair.1 pair.2 right, ?_, .black leftBalanced rightBalanced, ?_⟩
      · rw [buildBalancedTree]
        simp only [bounded]
        rw [if_neg (by omega)]
        split_ifs with single
        · have none : 2 ^ depth - 1 = 0 := by omega
          rw [none, buildBalancedTree_zero] at leftBuilt rightBuilt
          rw [none] at object
          cases leftBuilt
          cases rightBuilt
          simp only [Nat.add_zero] at object
          simp only [object, bind, Except.bind]
        · have middle : ((2 ^ depth - 1) + 1 + (2 ^ depth - 1)) / 2 = 2 ^ depth - 1 := by omega
          simp only [middle, leftBuilt, rightBuilt, object, bind, Except.bind]
      · simp only [entries, leftEntries, rightEntries, split]

/-- A run of 2^depth pairs makes a pennant, which takes them off the end. -/
theorem buildPennant_eq (keyList : List (K × V)) (color : FLLRBColor) (depth index : Nat)
    (pennants : List (Pennant K V)) (inside : index + 2 ^ depth ≤ keyList.length) :
    ∃ pennant : Pennant K V,
      buildPennant keyList color (2 ^ depth) ⟨index + 2 ^ depth, pennants⟩ =
        .ok ⟨index, pennants ++ [pennant]⟩ ∧
      pennant.color = color ∧ Balanced pennant.childTree .black depth ∧
      (pennant.key, pennant.value) :: pennant.childTree.entries =
        slice keyList index (2 ^ depth) := by
  have positive := Nat.two_pow_pos depth
  obtain ⟨pair, object, rest⟩ := slice_cons keyList index (2 ^ depth - 1) (by omega)
  obtain ⟨child, built, balanced, childEntries⟩ :=
    buildBalancedTree_perfect keyList depth (index + 1) (by omega)
  have taken : index + 2 ^ depth - 2 ^ depth = index := by omega
  refine ⟨⟨color, pair.1, pair.2, child⟩, ?_, rfl, balanced, ?_⟩
  · simp only [buildPennant, taken, object, built, bind, Except.bind]
  · rw [childEntries, ← rest]
    congr 1
    omega

theorem take_add_slice (keyList : List (K × V)) (index length : Nat) :
    keyList.take index ++ slice keyList index length = keyList.take (index + length) := by
  rw [List.take_add]
  rfl

/-- How many pairs the digits below a position stand for. -/
def pairsBelow (bits turns : Nat) : Nat := bits % 2 ^ turns + (2 ^ turns - 1)

theorem pairsBelow_succ (bits turns : Nat) :
    pairsBelow bits (turns + 1) =
      pairsBelow bits turns + 2 ^ turns + if bits.testBit turns then 2 ^ turns else 0 := by
  have positive := Nat.two_pow_pos turns
  have digit : bits % 2 ^ (turns + 1) =
      bits % 2 ^ turns + if bits.testBit turns then 2 ^ turns else 0 := by
    rw [Nat.mod_pow_succ, ← Nat.toNat_testBit]
    cases bits.testBit turns <;> simp
  unfold pairsBelow
  rw [digit, Nat.pow_succ]
  omega

/-- The turns that are left build the pairs that are left. -/
theorem buildPennants_eq (keyList : List (K × V)) (bits turns i : Nat)
    (pennants : List (Pennant K V)) (inside : pairsBelow bits turns ≤ keyList.length) :
    ∃ new : List (Pennant K V),
      buildPennants keyList i turns { bits, count := i + turns, current := turns - 1 }
          ⟨pairsBelow bits turns, pennants⟩ = .ok ⟨0, pennants ++ new⟩ ∧
      Balanced (attached new) .black turns ∧
      (attached new).entries = keyList.take (pairsBelow bits turns) := by
  induction turns generalizing i pennants with
  | zero =>
      have none : pairsBelow bits 0 = 0 := by simp [pairsBelow, Nat.mod_one]
      refine ⟨[], ?_, .empty, ?_⟩
      · simp [buildPennants, none]
      · simp [none, attached, entries]
  | succ turns ih =>
      have chunk : i + (turns + 1) - (i + 1) = turns := by omega
      have counts : i + (turns + 1) = i + 1 + turns := by omega
      have positive := Nat.two_pow_pos turns
      have succBelow := pairsBelow_succ bits turns
      have isOne : decide (bits &&& (1 <<< turns) = 0) = !bits.testBit turns := by
        rw [Nat.one_shiftLeft, Nat.and_two_pow]
        cases bits.testBit turns <;> simp
      simp only [buildPennants, Base12List.next, chunk, Nat.add_sub_cancel, isOne]
      cases digit : bits.testBit turns with
      | false =>
          simp only [digit, Bool.false_eq_true, ↓reduceIte, Nat.add_zero] at succBelow
          rw [succBelow] at inside ⊢
          obtain ⟨pennant, built, color, child, pairs⟩ :=
            buildPennant_eq keyList .black turns (pairsBelow bits turns) pennants inside
          obtain ⟨new, builds, balanced, taken⟩ :=
            ih (i + 1) (pennants ++ [pennant]) (by omega)
          refine ⟨pennant :: new, ?_, ?_, ?_⟩
          · simp only [built, bind, Except.bind, Bool.not_false, ↓reduceIte, counts, builds,
              List.append_assoc, List.singleton_append]
          · rw [attached, color]
            exact .black balanced child
          · rw [attached, entries, taken, pairs, take_add_slice]
      | true =>
          simp only [digit, ↓reduceIte] at succBelow
          rw [succBelow] at inside ⊢
          obtain ⟨pennant, built, color, child, pairs⟩ :=
            buildPennant_eq keyList .black turns (pairsBelow bits turns + 2 ^ turns) pennants inside
          obtain ⟨second, secondBuilt, secondColor, secondChild, secondPairs⟩ :=
            buildPennant_eq keyList .red turns (pairsBelow bits turns) (pennants ++ [pennant])
              (by omega)
          obtain ⟨new, builds, balanced, taken⟩ :=
            ih (i + 1) (pennants ++ [pennant] ++ [second]) (by omega)
          refine ⟨pennant :: second :: new, ?_, ?_, ?_⟩
          · simp only [built, secondBuilt, bind, Except.bind, Bool.not_true, Bool.false_eq_true,
              ↓reduceIte, counts, builds]
            simp
          · rw [attached, attached, color, secondColor]
            exact .black (.red balanced secondChild) child
          · rw [attached, attached, entries, entries, taken, pairs, secondPairs, take_add_slice,
              take_add_slice]

theorem pairsBelow_all (length : Nat) :
    pairsBelow ((length + 1) % 2 ^ Nat.log2 (length + 1)) (Nat.log2 (length + 1)) = length := by
  have positive := Nat.two_pow_pos (Nat.log2 (length + 1))
  have low : 2 ^ Nat.log2 (length + 1) ≤ length + 1 := Nat.log2_self_le (Nat.succ_ne_zero _)
  have high : length + 1 < 2 ^ (Nat.log2 (length + 1) + 1) := Nat.lt_log2_self
  rw [Nat.pow_succ] at high
  have wrapped : (length + 1) % 2 ^ Nat.log2 (length + 1) =
      length + 1 - 2 ^ Nat.log2 (length + 1) := by
    rw [Nat.mod_eq_sub_mod low, Nat.mod_eq_of_lt (by omega)]
  unfold pairsBelow
  rw [Nat.mod_mod, wrapped]
  omega

theorem rootFrom12List_eq (keyList : List (K × V)) :
    ∃ root, rootFrom12List (Base12List.new keyList.length) keyList = .ok root ∧
      Balanced root .black (Nat.log2 (keyList.length + 1)) ∧ root.entries = keyList := by
  obtain ⟨new, builds, balanced, taken⟩ :=
    buildPennants_eq keyList ((keyList.length + 1) % 2 ^ Nat.log2 (keyList.length + 1))
      (Nat.log2 (keyList.length + 1)) 0 [] (pairsBelow_all keyList.length).le
  rw [pairsBelow_all] at builds taken
  refine ⟨attached new, ?_, balanced, taken.trans (List.take_length)⟩
  have masked : (keyList.length + 1) &&& bitMask (Nat.log2 (keyList.length + 1)) =
      (keyList.length + 1) % 2 ^ Nat.log2 (keyList.length + 1) := by
    rw [bitMask, Nat.one_shiftLeft, Nat.and_two_pow_sub_one_eq_mod]
  rw [Nat.zero_add] at builds
  simp only [rootFrom12List, Base12List.new, masked, builds, bind, Except.bind, List.nil_append]

/-! ## From a dictionary -/

variable [LinearOrder K]

theorem ascending_iff {pairs : List (K × V)} :
    ascending pairs = true ↔ SortedEntries.Sorted pairs := by
  unfold SortedEntries.Sorted
  induction pairs with
  | nil => simp [ascending]
  | cons first rest ih =>
      cases rest with
      | nil => simp [ascending]
      | cons second others =>
          rw [ascending, Bool.and_eq_true, decide_eq_true_eq, ih]
          conv_rhs => rw [List.pairwise_cons]
          constructor
          · rintro ⟨less, sorted⟩
            refine ⟨fun pair found => ?_, sorted⟩
            rcases List.mem_cons.mp found with same | later
            · exact same ▸ less
            · exact less.trans ((List.pairwise_cons.mp sorted).1 pair later)
          · rintro ⟨all, sorted⟩
            exact ⟨all second List.mem_cons_self, sorted⟩

theorem sortedPairs_of_nodup {dictionary : List (K × V)}
    (distinct : (dictionary.map Prod.fst).Nodup) :
    ∃ pairs, sortedPairs dictionary = .ok pairs ∧ SortedEntries.Sorted pairs ∧
      pairs.Perm dictionary := by
  have perm := List.mergeSort_perm dictionary fun first second => decide (first.1 ≤ second.1)
  have ordered : (dictionary.mergeSort fun first second => decide (first.1 ≤ second.1)).Pairwise
      fun first second => decide (first.1 ≤ second.1) = true := by
    refine List.pairwise_mergeSort ?_ ?_ dictionary
    · intro a b c first second
      simp only [decide_eq_true_eq] at first second ⊢
      exact first.trans second
    · intro a b
      simpa using le_total a.1 b.1
  have different := List.pairwise_map.mp ((perm.map Prod.fst).nodup_iff.mpr distinct)
  have sorted : SortedEntries.Sorted
      (dictionary.mergeSort fun first second => decide (first.1 ≤ second.1)) := by
    refine (ordered.and different).imp fun both => ?_
    exact lt_of_le_of_ne (by simpa using both.1) both.2
  refine ⟨_, ?_, sorted, perm⟩
  simp only [sortedPairs, ascending_iff.mpr sorted, ↓reduceIte]

theorem sortedPairs_of_not_nodup {dictionary : List (K × V)}
    (clash : ¬(dictionary.map Prod.fst).Nodup) :
    sortedPairs dictionary = .error .sameOrdering := by
  have perm := List.mergeSort_perm dictionary fun first second => decide (first.1 ≤ second.1)
  have unsorted : ¬ascending
      (dictionary.mergeSort fun first second => decide (first.1 ≤ second.1)) = true := by
    intro rising
    have distinct := (ascending_iff.mp rising).imp fun less => less.ne
    exact clash ((perm.map Prod.fst).nodup_iff.mp (List.pairwise_map.mpr distinct))
  simp only [sortedPairs, unsorted, Bool.false_eq_true, ↓reduceIte]

theorem fromDictionary_valid {dictionary : List (K × V)}
    (distinct : (dictionary.map Prod.fst).Nodup) :
    ∃ tree, fromDictionary dictionary = .ok tree ∧ tree.Valid ∧
      tree.root.check = .ok (Nat.log2 (dictionary.length + 1)) ∧
      tree.root.entries.Perm dictionary := by
  obtain ⟨pairs, sortedOk, sorted, perm⟩ := sortedPairs_of_nodup distinct
  obtain ⟨root, built, balanced, entriesEq⟩ := rootFrom12List_eq pairs
  refine ⟨⟨root⟩, ?_, valid_iff.mpr ⟨entriesEq ▸ sorted, _, balanced⟩, ?_, entriesEq ▸ perm⟩
  · simp only [fromDictionary, sortedOk, built, bind, Except.bind]
  · rw [← perm.length_eq]
    exact check_of_balanced balanced

/-- A dictionary is built into a checked black-rooted tree of its pairs in key
order, of the least black depth its size allows, and no index leaves the sorted
array; keys that compare equal are refused. -/
theorem fromDictionary_builds_or_refuses (dictionary : List (K × V)) :
    ((dictionary.map Prod.fst).Nodup → ∃ tree, fromDictionary dictionary = .ok tree ∧
      tree.Valid ∧ tree.root.check = .ok (Nat.log2 (dictionary.length + 1)) ∧
      tree.root.entries.Perm dictionary) ∧
    (¬(dictionary.map Prod.fst).Nodup → fromDictionary dictionary = .error .sameOrdering) := by
  refine ⟨fromDictionary_valid, fun clash => ?_⟩
  simp only [fromDictionary, sortedPairs_of_not_nodup clash, bind, Except.bind]

end PicksOnMap.Source.FTreeSortedDictionary
