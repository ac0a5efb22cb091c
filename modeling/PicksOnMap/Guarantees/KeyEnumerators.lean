import PicksOnMap.Guarantees.SortedDictionaryRuns

/-!
# What the key enumerators yield

Source pin: Pods/FirebaseDatabase, FTreeSortedDictionaryEnumerator.m:11-80;
FTreeSortedDictionary.m:155-173; FArraySortedDictionary.m:22-44,262-283.

The stack of the tree enumerator stands for the keys still to come, so that a
step takes the first of them. The loop that fills the stack flips the
comparison in reverse even when there is no start key: every node then counts
as lying before the start, and the reverse enumerator of a tree yields nothing,
where that of an array yields every key.
-/
namespace PicksOnMap.Source

open Support SortedEntries FLLRBNode

variable {K V : Type*}

/-- The objects handed out until the first `nil`. -/
inductive KeyEnumerator.Yields : KeyEnumerator K V → List K → Prop
  | done {enumerator : KeyEnumerator K V} (finished : enumerator.nextObject = none) :
      Yields enumerator []
  | next {enumerator rest : KeyEnumerator K V} {key : K} {keys : List K}
      (step : enumerator.nextObject = some (key, rest)) (yields : Yields rest keys) :
      Yields enumerator (key :: keys)

/-! ## The tree's stack -/

namespace FTreeSortedDictionaryEnumerator

/-- The children in the order in which the enumeration visits them. -/
def earlier (isReverse : Bool) (left right : FLLRBNode K V) : FLLRBNode K V :=
  if isReverse then right else left

def later (isReverse : Bool) (left right : FLLRBNode K V) : FLLRBNode K V :=
  if isReverse then left else right

def keysOf (isReverse : Bool) (n : FLLRBNode K V) : List K :=
  if isReverse then (n.entries.map Prod.fst).reverse else n.entries.map Prod.fst

theorem keysOf_node (isReverse : Bool) (color : FLLRBColor) (left : FLLRBNode K V) (key : K)
    (value : V) (right : FLLRBNode K V) :
    keysOf isReverse (.node color left key value right) =
      keysOf isReverse (earlier isReverse left right) ++
        key :: keysOf isReverse (later isReverse left right) := by
  cases isReverse <;> simp [keysOf, earlier, later, entries]

/-- The keys a stack stands for: each node's own, then those of the side behind it. -/
def pending (isReverse : Bool) : List (FLLRBNode K V) → List K
  | [] => []
  | .empty :: _ => []
  | .node _ left key _ right :: stack =>
      key :: (keysOf isReverse (later isReverse left right) ++ pending isReverse stack)

theorem pushSpine_node (isReverse : Bool) (color : FLLRBColor) (left : FLLRBNode K V) (key : K)
    (value : V) (right : FLLRBNode K V) (stack : List (FLLRBNode K V)) :
    pushSpine isReverse (.node color left key value right) stack =
      pushSpine isReverse (earlier isReverse left right)
        (.node color left key value right :: stack) := by
  cases isReverse <;> rfl

theorem pending_pushSpine (isReverse : Bool) (n : FLLRBNode K V)
    (stack : List (FLLRBNode K V)) :
    pending isReverse (pushSpine isReverse n stack) =
      keysOf isReverse n ++ pending isReverse stack := by
  induction n generalizing stack with
  | empty => cases isReverse <;> rfl
  | node color left key value right leftIh rightIh =>
      have spine : pending isReverse (pushSpine isReverse (earlier isReverse left right)
          (.node color left key value right :: stack)) =
            keysOf isReverse (earlier isReverse left right) ++
              pending isReverse (.node color left key value right :: stack) := by
        cases isReverse with
        | false => exact leftIh _
        | true => exact rightIh _
      rw [pushSpine_node, spine, keysOf_node, pending, List.append_assoc, List.cons_append]

theorem nextObject_node (isReverse : Bool) (color : FLLRBColor) (left : FLLRBNode K V) (key : K)
    (value : V) (right : FLLRBNode K V) (stack : List (FLLRBNode K V)) :
    nextObject ⟨.node color left key value right :: stack, isReverse⟩ =
      some (key, ⟨pushSpine isReverse (later isReverse left right) stack, isReverse⟩) := by
  cases isReverse <;> rfl

theorem yields_pending (isReverse : Bool) (stack : List (FLLRBNode K V)) :
    KeyEnumerator.Yields (.tree ⟨stack, isReverse⟩) (pending isReverse stack) := by
  generalize counted : (pending isReverse stack).length = remaining
  induction remaining generalizing stack with
  | zero =>
      cases stack with
      | nil => exact .done rfl
      | cons top rest =>
          cases top with
          | empty => exact .done rfl
          | node color left key value right => simp [pending] at counted
  | succ remaining ih =>
      cases stack with
      | nil => simp [pending] at counted
      | cons top rest =>
          cases top with
          | empty => simp [pending] at counted
          | node color left key value right =>
              rw [pending, List.length_cons, ← pending_pushSpine] at counted
              rw [pending, ← pending_pushSpine]
              refine .next ?_ (ih _ (Nat.succ.inj counted))
              rw [KeyEnumerator.nextObject, nextObject_node]
              rfl

variable [LinearOrder K]

/-- Before another key, in the direction of the enumeration. -/
def precedes (isReverse : Bool) (first second : K) : Prop :=
  if isReverse then second < first else first < second

/-- On or behind the start key, in the direction of the enumeration. -/
def reached (isReverse : Bool) (startKey key : K) : Bool :=
  if isReverse then key ≤ startKey else startKey ≤ key

theorem precedes_trans {isReverse : Bool} {first second third : K}
    (front : precedes isReverse first second) (back : precedes isReverse second third) :
    precedes isReverse first third := by
  cases isReverse with
  | false => exact lt_trans front back
  | true => exact lt_trans back front

theorem not_reached_of_precedes {isReverse : Bool} {startKey key : K}
    (before : precedes isReverse key startKey) : ¬reached isReverse startKey key = true := by
  cases isReverse with
  | false => simpa [reached, precedes] using before
  | true => simpa [reached, precedes] using before

theorem reached_of_precedes {isReverse : Bool} {startKey key : K}
    (behind : precedes isReverse startKey key) : reached isReverse startKey key = true := by
  cases isReverse with
  | false => simpa [reached] using le_of_lt (show startKey < key from behind)
  | true => simpa [reached] using le_of_lt (show key < startKey from behind)

theorem reached_self (isReverse : Bool) (key : K) : reached isReverse key key = true := by
  cases isReverse <;> simp [reached]

/-- The children lie on their sides of the node, in the direction of the enumeration. -/
theorem children_precede (isReverse : Bool) {color : FLLRBColor} {left right : FLLRBNode K V}
    {key : K} {value : V} (sorted : Sorted (node color left key value right).entries) :
    (∀ held ∈ keysOf isReverse (earlier isReverse left right), precedes isReverse held key) ∧
      ∀ held ∈ keysOf isReverse (later isReverse left right), precedes isReverse key held := by
  obtain ⟨leftSorted, rightSorted, below, above⟩ := sorted_append_cons.mp sorted
  have lefts : ∀ held ∈ left.entries.map Prod.fst, held < key := by
    intro held inside
    obtain ⟨pair, found, rfl⟩ := List.mem_map.mp inside
    exact below pair found
  have rights : ∀ held ∈ right.entries.map Prod.fst, key < held := by
    intro held inside
    obtain ⟨pair, found, rfl⟩ := List.mem_map.mp inside
    exact above pair found
  cases isReverse with
  | false => exact ⟨lefts, rights⟩
  | true =>
      exact ⟨fun held inside => rights held (List.mem_reverse.mp inside),
        fun held inside => lefts held (List.mem_reverse.mp inside)⟩

/-- A turn of the loop that fills the stack. -/
theorem pushFrom_node (isReverse : Bool) (startKey : K) (color : FLLRBColor)
    (left : FLLRBNode K V) (key : K) (value : V) (right : FLLRBNode K V)
    (stack : List (FLLRBNode K V)) :
    (precedes isReverse key startKey ∧
      pushFrom (some startKey) isReverse (.node color left key value right) stack =
        pushFrom (some startKey) isReverse (later isReverse left right) stack) ∨
    (key = startKey ∧
      pushFrom (some startKey) isReverse (.node color left key value right) stack =
        .node color left key value right :: stack) ∨
    (precedes isReverse startKey key ∧
      pushFrom (some startKey) isReverse (.node color left key value right) stack =
        pushFrom (some startKey) isReverse (earlier isReverse left right)
          (.node color left key value right :: stack)) := by
  rcases lt_trichotomy key startKey with less | same | greater
  · cases isReverse with
    | false => exact .inl ⟨less, by simp [pushFrom, compare_lt_iff_lt.mpr less, later]⟩
    | true =>
        exact .inr (.inr ⟨less, by simp [pushFrom, compare_lt_iff_lt.mpr less, earlier]⟩)
  · refine .inr (.inl ⟨same, ?_⟩)
    cases isReverse <;> simp [pushFrom, compare_eq_iff_eq.mpr same]
  · cases isReverse with
    | false =>
        exact .inr (.inr ⟨greater, by simp [pushFrom, compare_gt_iff_gt.mpr greater, earlier]⟩)
    | true => exact .inl ⟨greater, by simp [pushFrom, compare_gt_iff_gt.mpr greater, later]⟩

/-- Filling the stack from a start key leaves the keys on or behind it. -/
theorem pending_pushFrom (isReverse : Bool) (startKey : K) {n : FLLRBNode K V}
    (sorted : Sorted n.entries) (stack : List (FLLRBNode K V)) :
    pending isReverse (pushFrom (some startKey) isReverse n stack) =
      (keysOf isReverse n).filter (reached isReverse startKey) ++ pending isReverse stack := by
  induction n generalizing stack with
  | empty => cases isReverse <;> rfl
  | node color left key value right leftIh rightIh =>
      obtain ⟨leftSorted, rightSorted, -, -⟩ := sorted_append_cons.mp sorted
      obtain ⟨before, behind⟩ := children_precede isReverse sorted
      have earlierIh : ∀ rest,
          pending isReverse (pushFrom (some startKey) isReverse
            (earlier isReverse left right) rest) =
          (keysOf isReverse (earlier isReverse left right)).filter (reached isReverse startKey) ++
            pending isReverse rest := by
        intro rest
        cases isReverse with
        | false => exact leftIh leftSorted rest
        | true => exact rightIh rightSorted rest
      have laterIh : ∀ rest,
          pending isReverse (pushFrom (some startKey) isReverse
            (later isReverse left right) rest) =
          (keysOf isReverse (later isReverse left right)).filter (reached isReverse startKey) ++
            pending isReverse rest := by
        intro rest
        cases isReverse with
        | false => exact rightIh rightSorted rest
        | true => exact leftIh leftSorted rest
      rw [keysOf_node, List.filter_append, List.filter_cons]
      rcases pushFrom_node isReverse startKey color left key value right stack with
        ⟨less, turn⟩ | ⟨same, turn⟩ | ⟨greater, turn⟩
      · have none : (keysOf isReverse (earlier isReverse left right)).filter
            (reached isReverse startKey) = [] :=
          List.filter_eq_nil_iff.mpr fun held inside =>
            not_reached_of_precedes (precedes_trans (before held inside) less)
        rw [turn, laterIh, none, if_neg (not_reached_of_precedes less), List.nil_append]
      · subst same
        have none : (keysOf isReverse (earlier isReverse left right)).filter
            (reached isReverse key) = [] :=
          List.filter_eq_nil_iff.mpr fun held inside =>
            not_reached_of_precedes (before held inside)
        have all : (keysOf isReverse (later isReverse left right)).filter
            (reached isReverse key) = keysOf isReverse (later isReverse left right) :=
          List.filter_eq_self.mpr fun held inside => reached_of_precedes (behind held inside)
        rw [turn, none, all, if_pos (reached_self isReverse key), pending, List.nil_append,
          List.cons_append]
      · have all : (keysOf isReverse (later isReverse left right)).filter
            (reached isReverse startKey) = keysOf isReverse (later isReverse left right) :=
          List.filter_eq_self.mpr fun held inside =>
            reached_of_precedes (precedes_trans greater (behind held inside))
        rw [turn, earlierIh, all, if_pos (reached_of_precedes greater), pending,
          List.append_assoc, List.cons_append]

/-- Without a start key every node counts as behind it forward, and as before it in
reverse. -/
theorem pending_pushFrom_none (isReverse : Bool) (n : FLLRBNode K V)
    (stack : List (FLLRBNode K V)) :
    pending isReverse (pushFrom none isReverse n stack) =
      (if isReverse then [] else keysOf isReverse n) ++ pending isReverse stack := by
  induction n generalizing stack with
  | empty => cases isReverse <;> rfl
  | node color left key value right leftIh rightIh =>
      cases isReverse with
      | false =>
          have turn := leftIh (.node color left key value right :: stack)
          simp only [Bool.false_eq_true, ↓reduceIte] at turn ⊢
          simp only [pushFrom, Bool.false_eq_true, ↓reduceIte, turn, keysOf_node, earlier, later,
            pending, List.append_assoc, List.cons_append]
      | true =>
          have turn := leftIh stack
          simp only [↓reduceIte] at turn ⊢
          simpa only [pushFrom, ↓reduceIte, Ordering.swap] using turn

end FTreeSortedDictionaryEnumerator

/-! ## The array's position -/

namespace FArraySortedDictionaryEnumerator

theorem yields_drop (V : Type*) (keys : List K) (pos : Nat) :
    (KeyEnumerator.array ⟨keys, pos, false⟩ : KeyEnumerator K V).Yields (keys.drop pos) := by
  generalize left : keys.length - pos = remaining
  induction remaining generalizing pos with
  | zero =>
      have finished : keys.length ≤ pos := by omega
      rw [List.drop_eq_nil_of_le finished]
      exact .done (by simp [KeyEnumerator.nextObject, nextObject, finished])
  | succ remaining ih =>
      have inside : pos < keys.length := by omega
      rw [List.drop_eq_getElem_cons inside]
      refine .next ?_ (ih (pos + 1) (by omega))
      simp [KeyEnumerator.nextObject, nextObject, inside]

theorem yields_take (V : Type*) (keys : List K) (count : Nat) (inside : count ≤ keys.length) :
    (KeyEnumerator.array ⟨keys, (count : Int) - 1, true⟩ : KeyEnumerator K V).Yields
      (keys.take count).reverse := by
  induction count with
  | zero => exact .done (by simp [KeyEnumerator.nextObject, nextObject])
  | succ count ih =>
      have present : count < keys.length := by omega
      rw [List.take_succ_eq_append_getElem present, List.reverse_append]
      refine .next ?_ (ih (by omega))
      simp [KeyEnumerator.nextObject, nextObject, present]

variable [LinearOrder K]

open FArraySortedDictionary in
theorem drop_findInsertPosition {keys : List K} (sorted : keys.Pairwise (· < ·)) (startKey : K) :
    keys.drop (findInsertPositionForKey startKey keys) =
      keys.filter (fun key => decide (startKey ≤ key)) := by
  induction keys with
  | nil => rfl
  | cons held rest ih =>
      obtain ⟨above, restSorted⟩ := List.pairwise_cons.mp sorted
      simp only [findInsertPositionForKey]
      split
      · rename_i less
        simp [less.not_ge, ih restSorted]
      · rename_i notLess
        have atLeast : startKey ≤ held := not_lt.mp notLess
        have all : rest.filter (fun key => decide (startKey ≤ key)) = rest := by
          rw [List.filter_eq_self]
          intro key inside
          simpa using (lt_of_le_of_lt atLeast (above key inside)).le
        simp [atLeast, all]

open FArraySortedDictionary in
/-- The start key itself is taken along when it is there. -/
theorem take_findInsertPosition {keys : List K} (sorted : keys.Pairwise (· < ·)) (startKey : K) :
    keys.take (if keys[findInsertPositionForKey startKey keys]? = some startKey
        then findInsertPositionForKey startKey keys + 1
        else findInsertPositionForKey startKey keys) =
      keys.filter (fun key => decide (key ≤ startKey)) := by
  induction keys with
  | nil => simp [findInsertPositionForKey]
  | cons held rest ih =>
      obtain ⟨above, restSorted⟩ := List.pairwise_cons.mp sorted
      have read := ih restSorted
      by_cases less : held < startKey
      · have kept : (held :: rest).filter (fun key => decide (key ≤ startKey)) =
            held :: rest.filter (fun key => decide (key ≤ startKey)) := by
          simp [less.le]
        simp only [findInsertPositionForKey, if_pos less, List.getElem?_cons_succ]
        rw [kept, ← read]
        split
        · rw [List.take_succ_cons]
        · rw [List.take_succ_cons]
      · have atLeast : startKey ≤ held := not_lt.mp less
        have none : rest.filter (fun key => decide (key ≤ startKey)) = [] := by
          rw [List.filter_eq_nil_iff]
          intro key inside
          simpa using lt_of_le_of_lt atLeast (above key inside)
        simp only [findInsertPositionForKey, if_neg less]
        rw [List.getElem?_cons_zero, List.filter_cons, none]
        by_cases same : held = startKey
        · simp [same]
        · have greater : startKey < held := lt_of_le_of_ne atLeast (Ne.symm same)
          simp [same, greater.not_ge]

end FArraySortedDictionaryEnumerator

/-! ## The four enumerators -/

def FImmutableSortedDictionary.isTree : FImmutableSortedDictionary K V → Bool
  | .array _ => false
  | .tree _ => true

variable [LinearOrder K]

open FArraySortedDictionary FArraySortedDictionaryEnumerator in
/-- Forward from its start, or backward from the start key on, an enumerator yields
the same keys whatever represents the dictionary. Backward without a start key it
yields every key of an array and no key of a tree. -/
theorem keyEnumerators_yield {dict : FImmutableSortedDictionary K V} {entries : List (K × V)}
    (represented : FImmutableSortedDictionary.Represents dict entries) (startKey : K) :
    KeyEnumerator.Yields dict.keyEnumerator (entries.map Prod.fst) ∧
    KeyEnumerator.Yields (dict.keyEnumeratorFrom startKey)
      ((entries.map Prod.fst).filter fun key => decide (startKey ≤ key)) ∧
    KeyEnumerator.Yields (dict.reverseKeyEnumeratorFrom startKey)
      ((entries.map Prod.fst).filter fun key => decide (key ≤ startKey)).reverse ∧
    KeyEnumerator.Yields dict.reverseKeyEnumerator
      (if dict.isTree then [] else (entries.map Prod.fst).reverse) := by
  cases represented with
  | @tree dict valid =>
      have all := FTreeSortedDictionaryEnumerator.yields_pending false
        (FTreeSortedDictionaryEnumerator.pushFrom none false dict.root [])
      have none := FTreeSortedDictionaryEnumerator.yields_pending true
        (FTreeSortedDictionaryEnumerator.pushFrom none true dict.root [])
      have forward := FTreeSortedDictionaryEnumerator.yields_pending false
        (FTreeSortedDictionaryEnumerator.pushFrom (some startKey) false dict.root [])
      have backward := FTreeSortedDictionaryEnumerator.yields_pending true
        (FTreeSortedDictionaryEnumerator.pushFrom (some startKey) true dict.root [])
      rw [FTreeSortedDictionaryEnumerator.pending_pushFrom_none,
        FTreeSortedDictionaryEnumerator.pending, List.append_nil] at all none
      rw [FTreeSortedDictionaryEnumerator.pending_pushFrom _ _ valid.sorted,
        FTreeSortedDictionaryEnumerator.pending, List.append_nil] at forward backward
      refine ⟨all, forward, ?_, none⟩
      rw [← List.filter_reverse]
      exact backward
  | @array dict entries sorted keys values small =>
      have sortedKeys : dict.keys.Pairwise (· < ·) := keys ▸ List.pairwise_map.mpr sorted
      have front := take_findInsertPosition sortedKeys startKey
      have back := drop_findInsertPosition sortedKeys startKey
      rw [← keys]
      refine ⟨yields_drop V dict.keys 0, back ▸ yields_drop V dict.keys _, ?_, ?_⟩
      · simp only [FImmutableSortedDictionary.reverseKeyEnumeratorFrom]
        have fits := findInsertPositionForKey_le startKey dict.keys
        rw [← front]
        split
        · rename_i found
          have inside : findInsertPositionForKey startKey dict.keys < dict.keys.length :=
            (List.getElem?_eq_some_iff.mp found).1
          have yields := yields_take V dict.keys
            (findInsertPositionForKey startKey dict.keys + 1) inside
          simpa using yields
        · exact yields_take V dict.keys _ fits
      · have whole := yields_take V dict.keys dict.keys.length le_rfl
        rwa [List.take_length] at whole

open FImmutableSortedDictionary in
/-- After any edits of an empty dictionary. -/
theorem keyEnumerators_after_edits (edits : List (DictionaryEdit K V)) (startKey : K) :
    ∃ dict, runEdits dictionaryWithComparator edits = .ok dict ∧
      dict.keyEnumerator.Yields ((edits.foldl editedEntries []).map Prod.fst) ∧
      (dict.keyEnumeratorFrom startKey).Yields
        (((edits.foldl editedEntries []).map Prod.fst).filter fun key => decide (startKey ≤ key)) ∧
      (dict.reverseKeyEnumeratorFrom startKey).Yields
        (((edits.foldl editedEntries []).map Prod.fst).filter fun key =>
          decide (key ≤ startKey)).reverse ∧
      dict.reverseKeyEnumerator.Yields
        (if dict.isTree then [] else ((edits.foldl editedEntries []).map Prod.fst).reverse) := by
  obtain ⟨dict, run, represented⟩ := runEdits_represents empty_represents edits
  exact ⟨dict, run, keyEnumerators_yield represented startKey⟩

end PicksOnMap.Source
