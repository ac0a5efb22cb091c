import PicksOnMap.Guarantees.TreeBuilder
import Mathlib.Data.List.Forall2
import Mathlib.Data.List.Perm.Subperm

/-!
# Both representations of the sorted dictionary are sorted entries

Source pin: Pods/FirebaseDatabase, FImmutableSortedDictionary.m:13-26,87-101;
FArraySortedDictionary.m:49-283; FTreeSortedDictionary.m:38-153.

A dictionary represents a sorted list of entries: two parallel arrays hold its
keys and values, a valid tree holds it in order. An insertion puts an entry and
a removal removes it, also across the change from the arrays to a tree, and
everything that is asked of the dictionary is answered from the list.
-/
namespace PicksOnMap.Source

open Support SortedEntries

variable {K V : Type*} [LinearOrder K]

/-! ## Positions in the key array -/

namespace FArraySortedDictionary

theorem findKey_get {entries : List (K × V)} (sorted : Sorted entries) (key : K) :
    ((findKey key (entries.map Prod.fst)).bind fun pos => (entries.map Prod.snd)[pos]?) =
      get? key entries := by
  induction entries with
  | nil => rfl
  | cons pair rest ih =>
      obtain ⟨slot, held⟩ := pair
      obtain ⟨below, restSorted⟩ := List.pairwise_cons.mp sorted
      simp only [List.map_cons, findKey, get?]
      split
      · rfl
      · split
        · rename_i less
          symm
          by_contra present
          obtain ⟨value, found⟩ := Option.ne_none_iff_exists'.mp present
          exact (below _ (mem_of_get? found)).not_gt less
        · rw [← ih restSorted, Option.bind_map]
          congr 1

theorem findKey_isSome {entries : List (K × V)} (sorted : Sorted entries) (key : K) :
    (findKey key (entries.map Prod.fst)).isSome = (get? key entries).isSome := by
  induction entries with
  | nil => rfl
  | cons pair rest ih =>
      obtain ⟨slot, held⟩ := pair
      obtain ⟨below, restSorted⟩ := List.pairwise_cons.mp sorted
      simp only [List.map_cons, findKey, get?]
      split
      · rfl
      · split
        · rename_i less
          symm
          rw [Option.isSome_none, Option.isSome_eq_false_iff, Option.isNone_iff_eq_none]
          by_contra present
          obtain ⟨value, found⟩ := Option.ne_none_iff_exists'.mp present
          exact (below _ (mem_of_get? found)).not_gt less
        · rw [Option.isSome_map, ih restSorted]

theorem insertIdx_eq_put (key : K) (value : V) (entries : List (K × V))
    (absent : get? key entries = none) :
    entries.insertIdx (findInsertPositionForKey key (entries.map Prod.fst)) (key, value) =
      put key value entries := by
  induction entries with
  | nil => rfl
  | cons pair rest ih =>
      obtain ⟨slot, held⟩ := pair
      simp only [get?] at absent
      split at absent
      · cases absent
      · rename_i different
        simp only [List.map_cons, findInsertPositionForKey, put, if_neg different]
        split
        · rename_i less
          rw [if_neg less.not_gt, List.insertIdx_succ_cons, ih absent]
        · rename_i notLess
          rw [if_pos (lt_of_le_of_ne (not_lt.mp notLess) different), List.insertIdx_zero]

theorem set_eq_put {key : K} (value : V) {entries : List (K × V)} (sorted : Sorted entries)
    {pos : Nat} (found : findKey key (entries.map Prod.fst) = some pos) :
    entries.set pos (key, value) = put key value entries := by
  induction entries generalizing pos with
  | nil => cases found
  | cons pair rest ih =>
      obtain ⟨slot, held⟩ := pair
      obtain ⟨below, restSorted⟩ := List.pairwise_cons.mp sorted
      simp only [List.map_cons, findKey] at found
      split at found
      · rename_i same
        cases found
        simp [put, same]
      · rename_i different
        split at found
        · cases found
        · rename_i notLess
          obtain ⟨inner, innerFound, rfl⟩ := Option.map_eq_some_iff.mp found
          rw [List.set_cons_succ, ih restSorted innerFound]
          simp [put, different, notLess]

theorem eraseIdx_eq_remove {key : K} {entries : List (K × V)} (sorted : Sorted entries)
    {pos : Nat} (found : findKey key (entries.map Prod.fst) = some pos) :
    entries.eraseIdx pos = remove key entries := by
  induction entries generalizing pos with
  | nil => cases found
  | cons pair rest ih =>
      obtain ⟨slot, held⟩ := pair
      obtain ⟨below, restSorted⟩ := List.pairwise_cons.mp sorted
      simp only [List.map_cons, findKey] at found
      split at found
      · rename_i same
        cases found
        subst same
        rw [remove_cons_self, remove_of_above below, List.eraseIdx_zero, List.tail_cons]
      · rename_i different
        split at found
        · cases found
        · obtain ⟨inner, innerFound, rfl⟩ := Option.map_eq_some_iff.mp found
          rw [List.eraseIdx_cons_succ, ih restSorted innerFound,
            remove_cons_of_ne held rest (Ne.symm different)]

/-- What lies before the position of a key lies below it. -/
theorem below_of_findKey {key : K} {entries : List (K × V)} (sorted : Sorted entries)
    {pos : Nat} (found : findKey key (entries.map Prod.fst) = some pos) :
    below key entries = entries.take pos := by
  induction entries generalizing pos with
  | nil => cases found
  | cons pair rest ih =>
      obtain ⟨slot, held⟩ := pair
      obtain ⟨above, restSorted⟩ := List.pairwise_cons.mp sorted
      simp only [List.map_cons, findKey] at found
      split at found
      · rename_i same
        cases found
        subst same
        have none := below_append_of_le held ([] : List (K × V)) above le_rfl
        simpa [SortedEntries.below] using none
      · rename_i different
        split at found
        · cases found
        · rename_i notLess
          obtain ⟨inner, innerFound, rfl⟩ := Option.map_eq_some_iff.mp found
          have less : slot < key := lt_of_le_of_ne (not_lt.mp notLess) (Ne.symm different)
          have nothing : ∀ pair ∈ ([] : List (K × V)), pair.1 < slot := by simp
          have more := below_append_of_gt held rest nothing less
          simp only [List.nil_append] at more
          rw [more, ih restSorted innerFound, List.take_succ_cons]

end FArraySortedDictionary

namespace FImmutableSortedDictionary

/-- The dictionary holds these entries; the arrays never outgrow the threshold. -/
inductive Represents : FImmutableSortedDictionary K V → List (K × V) → Prop
  | array {dict : FArraySortedDictionary K V} {entries : List (K × V)} (sorted : Sorted entries)
      (keys : dict.keys = entries.map Prod.fst) (values : dict.values = entries.map Prod.snd)
      (small : entries.length ≤ arrayToTreeThreshold) : Represents (.array dict) entries
  | tree {dict : FTreeSortedDictionary K V} (valid : dict.Valid) :
      Represents (.tree dict) dict.root.entries

variable {dict other : FImmutableSortedDictionary K V} {entries others : List (K × V)}

theorem Represents.sorted (represented : Represents dict entries) : Sorted entries := by
  cases represented with
  | array sorted keys values small => exact sorted
  | tree valid => exact valid.sorted

/-! ## Updates -/

theorem empty_represents :
    Represents (dictionaryWithComparator : FImmutableSortedDictionary K V) [] :=
  .array List.Pairwise.nil rfl rfl (Nat.zero_le _)

theorem fromDictionary_represents {dictionary : List (K × V)}
    (distinct : (dictionary.map Prod.fst).Nodup) :
    ∃ dict entries, fromDictionary dictionary = .ok dict ∧ Represents dict entries ∧
      entries.Perm dictionary := by
  unfold fromDictionary
  split
  · rename_i small
    obtain ⟨pairs, sortedOk, sorted, perm⟩ :=
      FTreeSortedDictionary.sortedPairs_of_nodup distinct
    refine ⟨.array ⟨pairs.map Prod.fst, pairs.map Prod.snd, by simp⟩, pairs, ?_,
      .array sorted rfl rfl (perm.length_eq ▸ small), perm⟩
    simp only [FArraySortedDictionary.fromDictionary, sortedOk, bind, Except.bind, Except.map]
  · obtain ⟨tree, built, valid, -, perm⟩ := FTreeSortedDictionary.fromDictionary_valid distinct
    exact ⟨.tree tree, _, by rw [built]; rfl, .tree valid, perm⟩

theorem insertKey_represents (represented : Represents dict entries) (key : K) (value : V) :
    ∃ inserted, dict.insertKey key value = .ok inserted ∧
      Represents inserted (put key value entries) := by
  cases represented with
  | @tree dict valid =>
      obtain ⟨insertedValid, same⟩ := FTreeSortedDictionary.insertKey_valid valid key value
      exact ⟨_, rfl, same ▸ .tree insertedValid⟩
  | @array dict entries sorted keys values small =>
      simp only [insertKey]
      cases found : FArraySortedDictionary.findKey key dict.keys with
      | some pos =>
          rw [keys] at found
          have replaced := FArraySortedDictionary.set_eq_put value sorted found
          refine ⟨_, rfl, .array (put_sorted key value sorted) ?_ ?_ ?_⟩
          · rw [← replaced, List.map_set, ← keys]
            rfl
          · rw [← replaced, List.map_set, ← values]
            rfl
          · rw [← replaced, List.length_set]
            exact small
      | none =>
          have absent : get? key entries = none := by
            have isSome := FArraySortedDictionary.findKey_isSome sorted key
            rw [← keys, found] at isSome
            exact Option.isNone_iff_eq_none.mp (by simpa using isSome.symm)
          have perm := put_perm_of_absent value absent
          have together : dict.entries = entries := by
            unfold FArraySortedDictionary.entries
            rw [keys, values, List.zip_map']
            simp
          have counted : dict.count = entries.length := by
            rw [FArraySortedDictionary.count, keys, List.length_map]
          dsimp only
          split
          · have swapped : ((key, value) :: entries).Perm (entries ++ [(key, value)]) :=
              (List.perm_append_singleton _ _).symm
            have distinct : ((entries ++ [(key, value)]).map Prod.fst).Nodup :=
              (((perm.trans swapped).map Prod.fst).nodup_iff).mp
                (keys_nodup (put_sorted key value sorted))
            obtain ⟨tree, built, valid, -, treePerm⟩ :=
              FTreeSortedDictionary.fromDictionary_valid distinct
            have same : tree.root.entries = put key value entries :=
              eq_of_perm valid.sorted (put_sorted key value sorted)
                (treePerm.trans (perm.trans swapped).symm)
            refine ⟨.tree tree, by rw [together, built]; rfl, same ▸ .tree valid⟩
          · rename_i more
            have inserted := FArraySortedDictionary.insertIdx_eq_put key value entries absent
            refine ⟨_, rfl, .array (put_sorted key value sorted) ?_ ?_ ?_⟩
            · rw [← inserted, List.map_insertIdx, ← keys]
              rfl
            · rw [← inserted, List.map_insertIdx, ← keys, ← values]
              rfl
            · rw [perm.length_eq, List.length_cons]
              omega

theorem removeKey_represents (represented : Represents dict entries) (key : K) :
    Represents (dict.removeKey key) (remove key entries) := by
  cases represented with
  | @tree dict valid =>
      obtain ⟨removedValid, same⟩ := FTreeSortedDictionary.removeKey_valid valid key
      exact same ▸ .tree removedValid
  | @array dict entries sorted keys values small =>
      simp only [removeKey, FArraySortedDictionary.removeKey]
      split
      · rename_i found
        have isSome := FArraySortedDictionary.findKey_isSome sorted key
        rw [← keys, found] at isSome
        have absent : get? key entries = none :=
          Option.isNone_iff_eq_none.mp (by simpa using isSome.symm)
        have kept : remove key entries = entries := remove_of_absent fun pair inside same => by
          rw [← same, (mem_iff_get? sorted pair.1 pair.2).mp inside] at absent
          cases absent
        exact kept.symm ▸ .array sorted keys values small
      · rename_i pos found
        rw [keys] at found
        have erased := FArraySortedDictionary.eraseIdx_eq_remove sorted found
        refine .array (remove_sorted key sorted) ?_ ?_ ?_
        · rw [← erased, ← List.eraseIdx_map, ← keys]
        · rw [← erased, ← List.eraseIdx_map, ← values]
        · exact (List.length_filter_le _ _).trans small

/-! ## Answers -/

/-- Every answer of the dictionary is read off the entries. -/
structure Answers (dict : FImmutableSortedDictionary K V) (entries : List (K × V)) : Prop where
  count : dict.count = entries.length
  isEmpty : dict.isEmpty = true ↔ entries = []
  get : ∀ key, dict.get key = get? key entries
  contains : ∀ key, dict.contains key = (get? key entries).isSome
  minKey : dict.minKey = entries.head?.map Prod.fst
  maxKey : dict.maxKey = entries.getLast?.map Prod.fst
  predecessor : ∀ key, (get? key entries).isSome →
    dict.getPredecessorKey key = .ok (predecessor key entries)
  noPredecessor : ∀ key, get? key entries = none → ∃ failure,
    dict.getPredecessorKey key = .error failure

theorem Answers.of_tree {dict : FTreeSortedDictionary K V} (valid : dict.Valid) :
    Answers (.tree dict) dict.root.entries where
  count := FTreeSortedDictionary.count_eq_length dict.root
  isEmpty := FLLRBNode.entries_eq_nil_iff.symm
  get := FTreeSortedDictionary.get_eq valid
  contains key := congrArg Option.isSome (FTreeSortedDictionary.get_eq valid key)
  minKey := congrArg (Option.map Prod.fst) (FLLRBNode.min_eq_head? dict.root)
  maxKey := FLLRBNode.maxKey_eq_getLast? dict.root
  predecessor key present := by
    obtain ⟨value, found⟩ := Option.isSome_iff_exists.mp present
    have read := FTreeSortedDictionary.getPredecessorKeyFrom_eq key none valid.sorted
    rw [found, Option.or_none] at read
    exact read
  noPredecessor key absent := by
    have read := FTreeSortedDictionary.getPredecessorKeyFrom_eq key none valid.sorted
    rw [absent] at read
    exact ⟨_, read⟩

theorem Answers.of_array {dict : FArraySortedDictionary K V} (sorted : Sorted entries)
    (keys : dict.keys = entries.map Prod.fst) (values : dict.values = entries.map Prod.snd) :
    Answers (.array dict) entries where
  count := by simp [FImmutableSortedDictionary.count, FArraySortedDictionary.count, keys]
  isEmpty := by simp [FImmutableSortedDictionary.isEmpty, keys]
  get key := by
    rw [← FArraySortedDictionary.findKey_get sorted key, ← keys, ← values]
    simp only [FImmutableSortedDictionary.get, FArraySortedDictionary.get]
    cases FArraySortedDictionary.findKey key dict.keys <;> rfl
  contains key := by
    rw [← FArraySortedDictionary.findKey_isSome sorted key, ← keys]
    rfl
  minKey := by simp [FImmutableSortedDictionary.minKey, keys]
  maxKey := by simp [FImmutableSortedDictionary.maxKey, keys]
  predecessor key present := by
    rw [← FArraySortedDictionary.findKey_isSome sorted key, Option.isSome_iff_exists] at present
    obtain ⟨pos, found⟩ := present
    have below := FArraySortedDictionary.below_of_findKey sorted found
    have inside : pos < entries.length := by
      have read := FArraySortedDictionary.findKey_get sorted key
      have isSome := FArraySortedDictionary.findKey_isSome sorted key
      rw [found, Option.bind_some] at read
      rw [found, ← read] at isSome
      simpa using isSome.symm
    simp only [getPredecessorKey, FArraySortedDictionary.getPredecessorKey, keys, found,
      SortedEntries.predecessor, below]
    cases pos with
    | zero => rfl
    | succ pos =>
        have last : (entries.take (pos + 1)).getLast? = entries[pos]? := by
          rw [List.getLast?_take, if_neg (Nat.succ_ne_zero pos), Nat.add_sub_cancel,
            List.getElem?_eq_getElem (by omega), Option.some_or]
        simp only [last, List.getElem?_map]
  noPredecessor key absent := by
    have isSome := FArraySortedDictionary.findKey_isSome sorted key
    rw [absent, ← keys, Option.isSome_none, Option.isSome_eq_false_iff,
      Option.isNone_iff_eq_none] at isSome
    exact ⟨.predecessorOfAbsentKey,
      by simp [getPredecessorKey, FArraySortedDictionary.getPredecessorKey, isSome]⟩

theorem Represents.answers (represented : Represents dict entries) : Answers dict entries := by
  cases represented with
  | array sorted keys values small => exact .of_array sorted keys values
  | tree valid => exact .of_tree valid

/-- Enumerating stops where the block says so, in either direction. -/
theorem Represents.enumerates (represented : Represents dict entries) {σ : Type*}
    (reverse : Bool) (block : K → V → σ → Bool × σ) (seen : σ) :
    dict.enumerateKeysAndObjectsReverse reverse block seen =
      enumerateEntries block (if reverse then entries.reverse else entries) seen := by
  cases represented with
  | tree valid => exact FTreeSortedDictionary.traversal_eq reverse block seen
  | @array dict entries sorted keys values small =>
      have together : dict.entries = entries := by
        unfold FArraySortedDictionary.entries
        rw [keys, values, List.zip_map']
        simp
      rw [enumerateKeysAndObjectsReverse, together]
      cases reverse <;> rfl

/-! ## Equality -/

/-- The comparison goes on while the values found in the other dictionary agree. -/
theorem enumerateEntries_isEqual (same : V → V → Bool) (other : FImmutableSortedDictionary K V)
    (entries : List (K × V)) :
    enumerateEntries
        (fun key value isEqual =>
          let isEqual := isEqual && (other.get key).any (same value)
          (!isEqual, isEqual)) entries true =
      entries.all fun pair => (other.get pair.1).any (same pair.2) := by
  induction entries with
  | nil => rfl
  | cons pair rest ih =>
      simp only [enumerateEntries, Bool.true_and, List.all_cons]
      cases (other.get pair.1).any (same pair.2) with
      | true => simpa using ih
      | false => rfl

/-- Two dictionaries are equal when they hold equal values under the same keys,
whatever represents either. -/
theorem isEqual_iff (same : V → V → Bool) (represented : Represents dict entries)
    (otherRepresented : Represents other others) :
    dict.isEqual same other = true ↔
      List.Forall₂ (fun left right => left.1 = right.1 ∧ same left.2 right.2 = true)
        entries others := by
  have compared : dict.isEqual same other = true ↔ entries.length = others.length ∧
      ∀ pair ∈ entries, (get? pair.1 others).any (same pair.2) = true := by
    have compares := enumerateEntries_isEqual same other entries
    unfold isEqual
    rw [represented.answers.count, otherRepresented.answers.count, represented.enumerates false,
      if_neg Bool.false_ne_true, compares]
    split
    · rename_i differ
      simp [differ]
    · rename_i agree
      simp only [List.all_eq_true, not_not.mp agree, true_and, otherRepresented.answers.get]
  rw [compared, List.forall₂_iff_get]
  refine and_congr_right fun lengths => ⟨fun found i left right => ?_, fun found pair inside => ?_⟩
  · have keysSubset : entries.map Prod.fst ⊆ others.map Prod.fst := by
      intro key inside
      obtain ⟨pair, pairInside, rfl⟩ := List.mem_map.mp inside
      obtain ⟨value, read, -⟩ := Option.any_eq_true _ _ |>.mp (found pair pairInside)
      exact List.mem_map.mpr ⟨(pair.1, value), mem_of_get? read, rfl⟩
    have perm : (entries.map Prod.fst).Perm (others.map Prod.fst) :=
      (List.Nodup.subperm (keys_nodup represented.sorted) keysSubset).perm_of_length_le
        (by simp [lengths])
    have keys : entries.map Prod.fst = others.map Prod.fst :=
      perm.eq_of_pairwise (fun a b _ _ less greater => absurd less greater.not_gt)
        (List.pairwise_map.mpr represented.sorted) (List.pairwise_map.mpr otherRepresented.sorted)
    have sameKey : (entries.get ⟨i, left⟩).1 = (others.get ⟨i, right⟩).1 := by
      have at_i := congrArg (fun keys => keys[i]?) keys
      simpa [left, right] using at_i
    have read := (mem_iff_get? otherRepresented.sorted (others.get ⟨i, right⟩).1
      (others.get ⟨i, right⟩).2).mp (List.get_mem others _)
    have agrees := found _ (List.get_mem entries ⟨i, left⟩)
    rw [sameKey, read] at agrees
    exact ⟨sameKey, agrees⟩
  · obtain ⟨i, at_i⟩ := List.get_of_mem inside
    have right : i.val < others.length := lengths ▸ i.isLt
    obtain ⟨sameKey, agrees⟩ := found i.val i.isLt right
    have read := (mem_iff_get? otherRepresented.sorted (others.get ⟨i, right⟩).1
      (others.get ⟨i, right⟩).2).mp (List.get_mem others _)
    rw [at_i] at sameKey agrees
    rw [sameKey, read]
    exact agrees

/-! ## Runs -/

inductive DictionaryEdit (K V : Type*) where
  | insertKey (key : K) (value : V)
  | removeKey (key : K)

def edited (dict : FImmutableSortedDictionary K V) :
    DictionaryEdit K V → Except SortedDictionaryError (FImmutableSortedDictionary K V)
  | .insertKey key value => dict.insertKey key value
  | .removeKey key => .ok (dict.removeKey key)

def runEdits (dict : FImmutableSortedDictionary K V) :
    List (DictionaryEdit K V) → Except SortedDictionaryError (FImmutableSortedDictionary K V)
  | [] => .ok dict
  | edit :: rest => do
      let dict ← dict.edited edit
      dict.runEdits rest

def editedEntries (entries : List (K × V)) : DictionaryEdit K V → List (K × V)
  | .insertKey key value => put key value entries
  | .removeKey key => remove key entries

theorem edited_represents (represented : Represents dict entries) (edit : DictionaryEdit K V) :
    ∃ next, dict.edited edit = .ok next ∧ Represents next (editedEntries entries edit) := by
  cases edit with
  | insertKey key value => exact insertKey_represents represented key value
  | removeKey key => exact ⟨_, rfl, removeKey_represents represented key⟩

theorem runEdits_represents (represented : Represents dict entries)
    (edits : List (DictionaryEdit K V)) :
    ∃ final, dict.runEdits edits = .ok final ∧
      Represents final (edits.foldl editedEntries entries) := by
  induction edits generalizing dict entries with
  | nil => exact ⟨dict, rfl, represented⟩
  | cons edit rest ih =>
      obtain ⟨next, step, nextRepresented⟩ := edited_represents represented edit
      obtain ⟨final, run, finalRepresented⟩ := ih nextRepresented
      exact ⟨final, by simp only [runEdits, step, bind, Except.bind, run], finalRepresented⟩

/-- A dictionary made of distinct keys and edited in any way raises nothing, and
answers and enumerates as the sorted list of what was put and not removed does;
it is a checked tree, or arrays of at most the threshold's size. -/
theorem edits_refine_sorted_entries {dictionary : List (K × V)}
    (distinct : (dictionary.map Prod.fst).Nodup) (edits : List (DictionaryEdit K V))
    {σ : Type*} (reverse : Bool) (block : K → V → σ → Bool × σ) (seen : σ) :
    ∃ start final entries, fromDictionary dictionary = .ok start ∧
      start.runEdits edits = .ok final ∧
      Sorted entries ∧ entries.Perm dictionary ∧
      Answers final (edits.foldl editedEntries entries) ∧
      final.enumerateKeysAndObjectsReverse reverse block seen =
        enumerateEntries block
          (if reverse then (edits.foldl editedEntries entries).reverse
            else edits.foldl editedEntries entries) seen ∧
      (match final with
      | .array held => held.count ≤ arrayToTreeThreshold
      | .tree held => held.Valid ∧ held.root.checkMaxDepth = .ok true ∧
          held.root.height ≤ 2 * Nat.log2 (held.root.count + 1)) := by
  obtain ⟨start, entries, built, represented, perm⟩ := fromDictionary_represents distinct
  obtain ⟨final, run, finalRepresented⟩ := runEdits_represents represented edits
  refine ⟨start, final, entries, built, run, represented.sorted, perm, finalRepresented.answers,
    finalRepresented.enumerates reverse block seen, ?_⟩
  generalize edits.foldl editedEntries entries = left at finalRepresented
  cases finalRepresented with
  | array sorted keys values small =>
      simpa only [FArraySortedDictionary.count, keys, List.length_map] using small
  | tree valid => exact ⟨valid, valid.depth⟩

theorem edits_refine_sorted_entries_of_two :
    ∃ start final entries,
      fromDictionary [(2, "second"), (1, "first")] = .ok start ∧
      start.runEdits [.insertKey 3 "third", .removeKey 2] = .ok final ∧
      Sorted entries ∧ entries.Perm [(2, "second"), (1, "first")] ∧
      Answers final
        ([DictionaryEdit.insertKey 3 "third", .removeKey 2].foldl editedEntries entries) := by
  have distinct : (([(2, "second"), (1, "first")] : List (Nat × String)).map Prod.fst).Nodup := by
    decide
  obtain ⟨start, final, entries, built, run, sorted, perm, answers, -, -⟩ :=
    edits_refine_sorted_entries distinct [.insertKey 3 "third", .removeKey 2] false
      (fun _ _ seen => (false, seen + 1)) 0
  exact ⟨start, final, entries, built, run, sorted, perm, answers⟩

/-- Equality compares what two runs of edits have left, whatever represents it. -/
theorem isEqual_after_edits (same : V → V → Bool) (edits otherEdits : List (DictionaryEdit K V)) :
    ∃ dict other, runEdits dictionaryWithComparator edits = .ok dict ∧
      runEdits dictionaryWithComparator otherEdits = .ok other ∧
      (dict.isEqual same other = true ↔
        List.Forall₂ (fun left right => left.1 = right.1 ∧ same left.2 right.2 = true)
          (edits.foldl editedEntries []) (otherEdits.foldl editedEntries [])) := by
  obtain ⟨dict, run, represented⟩ := runEdits_represents empty_represents edits
  obtain ⟨other, otherRun, otherRepresented⟩ := runEdits_represents empty_represents otherEdits
  exact ⟨dict, other, run, otherRun, isEqual_iff same represented otherRepresented⟩

end FImmutableSortedDictionary

end PicksOnMap.Source
