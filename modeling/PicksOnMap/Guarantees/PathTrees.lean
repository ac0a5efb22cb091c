import Mathlib.Data.List.Induction
import PicksOnMap.Source.ImmutableTree

/-!
# A tree of values is a map from paths

Everything a tree answers is fixed by `valueAtPath`: the updates act on it as
updates of a map from paths, and two well-formed trees with the same values are
the same tree. Well-formed trees hold no empty subtree, so an update that takes
the last value away also takes the branch that led to it.
-/
namespace PicksOnMap.Source.FImmutableTree

open Support.SortedEntries
open scoped StringComparator

variable {K V σ : Type*}

theorem eq_empty_of_isEmpty {tree : FImmutableTree K V} (isEmpty : tree.isEmpty = true) :
    tree = empty := by
  obtain ⟨value, children⟩ := tree
  simp only [FImmutableTree.isEmpty, Bool.and_eq_true, Option.isNone_iff_eq_none,
    List.isEmpty_iff] at isEmpty
  obtain ⟨noValue, noChildren⟩ := isEmpty
  simp only [FImmutableTree.value] at noValue
  simp only [FImmutableTree.children] at noChildren
  rw [noValue, noChildren]
  rfl

@[simp] theorem isEmpty_empty : (empty : FImmutableTree K V).isEmpty = true := rfl

theorem isEmpty_rebuilt {value value' : Option V} (there : value'.isNone = value.isNone)
    {children children' : List (K × FImmutableTree K V)}
    {Related : K × FImmutableTree K V → K × FImmutableTree K V → Prop}
    (related : List.Forall₂ Related children children') :
    (FImmutableTree.node value' children').isEmpty =
      (FImmutableTree.node value children).isEmpty := by
  have sameEmpty : children'.isEmpty = children.isEmpty := by
    cases related <;> rfl
  simp only [FImmutableTree.isEmpty, FImmutableTree.value, FImmutableTree.children, there,
    sameEmpty]

/-! ## Traversal -/

mutual

/-- The values with their paths, in the order of the traversal. -/
def entries : FImmutableTree K V → List (List K × V)
  | .node value children =>
      entriesOfChildren children ++ value.toList.map fun value => ([], value)

def entriesOfChildren : List (K × FImmutableTree K V) → List (List K × V)
  | [] => []
  | (childKey, childTree) :: rest =>
      childTree.entries.map (fun entry => (childKey :: entry.1, entry.2)) ++
        entriesOfChildren rest

end

mutual

theorem forEachPathSoFar_eq (block : List K → V → σ → σ) (pathSoFar : List K)
    (tree : FImmutableTree K V) (seen : σ) :
    forEachPathSoFar block pathSoFar tree seen =
      tree.entries.foldl (fun seen entry => block (pathSoFar ++ entry.1) entry.2 seen) seen := by
  obtain ⟨value, children⟩ := tree
  simp only [forEachPathSoFar, entries, List.foldl_append,
    forEachOfChildren_eq block pathSoFar children seen]
  cases value with
  | none => rfl
  | some value => simp

theorem forEachOfChildren_eq (block : List K → V → σ → σ) (pathSoFar : List K)
    (children : List (K × FImmutableTree K V)) (seen : σ) :
    forEachOfChildren block pathSoFar children seen =
      (entriesOfChildren children).foldl
        (fun seen entry => block (pathSoFar ++ entry.1) entry.2 seen) seen := by
  match children with
  | [] => rfl
  | (childKey, childTree) :: rest =>
      simp only [forEachOfChildren, entriesOfChildren, List.foldl_append, List.foldl_map,
        forEachPathSoFar_eq block (pathSoFar ++ [childKey]) childTree seen,
        forEachOfChildren_eq block pathSoFar rest]
      simp only [List.append_assoc, List.singleton_append]

end

theorem forEach_eq (block : List K → V → σ → σ) (tree : FImmutableTree K V) (seen : σ) :
    tree.forEach block seen =
      tree.entries.foldl (fun seen entry => block entry.1 entry.2 seen) seen := by
  simp only [forEach, forEachPathSoFar_eq, List.nil_append]

theorem entriesOfChildren_eq_flatMap (children : List (K × FImmutableTree K V)) :
    entriesOfChildren children = children.flatMap fun child =>
      child.2.entries.map fun entry => (child.1 :: entry.1, entry.2) := by
  induction children with
  | nil => rfl
  | cons child rest ih =>
      obtain ⟨childKey, childTree⟩ := child
      rw [entriesOfChildren, List.flatMap_cons, ih]

variable [DecidableEq K]

/-! ## Lookups -/

/-- The subtree under one key, empty where there is none. -/
def childAt (tree : FImmutableTree K V) (key : K) : FImmutableTree K V :=
  (get? key tree.children).getD empty

/-- Over sorted children a lookup finds each of them. -/
theorem get?_of_mem [StringComparator K] {children : List (K × FImmutableTree K V)}
    (sorted : Sorted children) {child : K × FImmutableTree K V} (member : child ∈ children) :
    get? child.1 children = some child.2 :=
  (mem_iff_get? sorted child.1 child.2).mp member

@[simp] theorem valueAtPath_nil (tree : FImmutableTree K V) :
    tree.valueAtPath [] = tree.value := by
  cases tree
  rfl

theorem valueAtPath_empty (path : List K) :
    (empty : FImmutableTree K V).valueAtPath path = none := by
  cases path <;> rfl

theorem valueAtPath_cons (tree : FImmutableTree K V) (front : K) (rest : List K) :
    tree.valueAtPath (front :: rest) = (tree.childAt front).valueAtPath rest := by
  obtain ⟨value, children⟩ := tree
  simp only [valueAtPath, childAt, FImmutableTree.children]
  cases get? front children with
  | none => exact (valueAtPath_empty rest).symm
  | some child => rfl

theorem valueAtPath_initWithValue (value : V) (path : List K) :
    (initWithValue value : FImmutableTree K V).valueAtPath path =
      if path = [] then some value else none := by
  cases path <;> rfl

theorem subtreeAtPath_empty (path : List K) :
    (empty : FImmutableTree K V).subtreeAtPath path = empty := by
  cases path <;> rfl

@[simp] theorem subtreeAtPath_nil (tree : FImmutableTree K V) :
    tree.subtreeAtPath [] = tree := by
  cases tree
  rfl

theorem subtreeAtPath_cons (tree : FImmutableTree K V) (front : K) (rest : List K) :
    tree.subtreeAtPath (front :: rest) = (tree.childAt front).subtreeAtPath rest := by
  obtain ⟨value, children⟩ := tree
  simp only [subtreeAtPath, childAt, FImmutableTree.children]
  cases get? front children with
  | none => exact (subtreeAtPath_empty rest).symm
  | some child => rfl

theorem valueAtPath_subtreeAtPath (tree : FImmutableTree K V) (path below : List K) :
    (tree.subtreeAtPath path).valueAtPath below = tree.valueAtPath (path ++ below) := by
  induction path generalizing tree with
  | nil => rw [subtreeAtPath_nil, List.nil_append]
  | cons front rest ih => rw [subtreeAtPath_cons, List.cons_append, valueAtPath_cons, ih]

theorem findRootMost_nil (tree : FImmutableTree K V) :
    tree.findRootMostValueAndPath [] = tree.value.map fun value => ([], value) := by
  obtain ⟨value, children⟩ := tree
  cases value <;> rfl

theorem findRootMost_empty (path : List K) :
    (empty : FImmutableTree K V).findRootMostValueAndPath path = none := by
  cases path <;> rfl

theorem findRootMost_cons (tree : FImmutableTree K V) (front : K) (rest : List K) :
    tree.findRootMostValueAndPath (front :: rest) =
      match tree.value with
      | some value => some ([], value)
      | none =>
          ((tree.childAt front).findRootMostValueAndPath rest).map fun found =>
            (front :: found.1, found.2) := by
  obtain ⟨value, children⟩ := tree
  cases value with
  | some value => rfl
  | none =>
      simp only [findRootMostValueAndPath, findRootMostMatchingPath, childAt,
        FImmutableTree.children, FImmutableTree.value, Option.filter_none]
      cases get? front children with
      | none => rw [Option.getD_none, ← findRootMostValueAndPath, findRootMost_empty]; rfl
      | some child => rfl

/-- No value on the way to a path and none at it. -/
theorem findRootMost_eq_none (tree : FImmutableTree K V) (path : List K) :
    tree.findRootMostValueAndPath path = none ↔
      ∀ above, above <+: path → tree.valueAtPath above = none := by
  induction path generalizing tree with
  | nil => simp [findRootMost_nil]
  | cons front rest ih =>
      rw [findRootMost_cons]
      constructor
      · intro unfound above onPath
        cases hvalue : tree.value with
        | some value => simp [hvalue] at unfound
        | none =>
            rcases List.prefix_cons_iff.mp onPath with rfl | ⟨tail, rfl, below⟩
            · rw [valueAtPath_nil, hvalue]
            · rw [valueAtPath_cons]
              exact (ih _).mp (by simpa [hvalue] using unfound) tail below
      · intro bare
        have noValue : tree.value = none := by simpa using bare [] List.nil_prefix
        simp only [noValue, Option.map_eq_none_iff]
        refine (ih _).mpr fun above onPath => ?_
        rw [← valueAtPath_cons]
        exact bare (front :: above) (List.cons_prefix_cons.mpr ⟨rfl, onPath⟩)

/-- What is found is the value of the shortest prefix of the path that has one. -/
theorem findRootMost_eq_some {tree : FImmutableTree K V} {path found : List K} {value : V} :
    tree.findRootMostValueAndPath path = some (found, value) ↔
      found <+: path ∧ tree.valueAtPath found = some value ∧
        ∀ above, above <+: found → above ≠ found → tree.valueAtPath above = none := by
  induction path generalizing tree found with
  | nil =>
      rw [findRootMost_nil]
      constructor
      · intro held
        obtain ⟨_, held, same⟩ := Option.map_eq_some_iff.mp held
        cases same
        exact ⟨List.nil_prefix, by simpa using held,
          fun above onPath apart => absurd (List.prefix_nil.mp onPath) apart⟩
      · rintro ⟨onPath, held, -⟩
        obtain rfl := List.prefix_nil.mp onPath
        rw [valueAtPath_nil] at held
        simp [held]
  | cons front rest ih =>
      rw [findRootMost_cons]
      cases hvalue : tree.value with
      | some held =>
          simp only [Option.some.injEq, Prod.mk.injEq]
          constructor
          · rintro ⟨rfl, rfl⟩
            exact ⟨List.nil_prefix, by simpa using hvalue,
              fun above onPath apart => absurd (List.prefix_nil.mp onPath) apart⟩
          · rintro ⟨-, asked, bare⟩
            cases found with
            | nil => simpa [hvalue] using asked
            | cons first others =>
                have := bare [] List.nil_prefix (by simp)
                simp [hvalue] at this
      | none =>
          simp only [Option.map_eq_some_iff, Prod.exists, Prod.mk.injEq]
          constructor
          · rintro ⟨tail, _, held, rfl, rfl⟩
            obtain ⟨onPath, held, bare⟩ := ih.mp held
            refine ⟨List.cons_prefix_cons.mpr ⟨rfl, onPath⟩, by rwa [valueAtPath_cons], ?_⟩
            intro above between apart
            rcases List.prefix_cons_iff.mp between with rfl | ⟨shorter, rfl, below⟩
            · rw [valueAtPath_nil, hvalue]
            · rw [valueAtPath_cons]
              exact bare shorter below fun same => apart (by rw [same])
          · rintro ⟨onPath, held, bare⟩
            rcases List.prefix_cons_iff.mp onPath with rfl | ⟨tail, rfl, below⟩
            · simp [hvalue] at held
            · refine ⟨tail, value, ih.mpr ⟨below, by rwa [← valueAtPath_cons], ?_⟩, rfl, rfl⟩
              intro above between apart
              rw [← valueAtPath_cons]
              exact bare (front :: above) (List.cons_prefix_cons.mpr ⟨rfl, between⟩)
                fun same => apart (List.cons.inj same).2

/-! ## Updates -/

variable [StringComparator K]

theorem get?_putChild (key query : K) (newChild : FImmutableTree K V)
    (children : List (K × FImmutableTree K V)) :
    get? query (putChild key newChild children) =
      if query = key then some newChild else get? query children :=
  get?_put key query newChild children

theorem putChild_ne_nil (key : K) (newChild : FImmutableTree K V)
    (children : List (K × FImmutableTree K V)) : putChild key newChild children ≠ [] := by
  intro none
  have found := get?_putChild key key newChild children
  rw [none, if_pos rfl] at found
  cases found

/-- The children after one of them was replaced, without it if it became empty. -/
def withChild (key : K) (newChild : FImmutableTree K V)
    (children : List (K × FImmutableTree K V)) : List (K × FImmutableTree K V) :=
  if newChild.isEmpty then remove key children else putChild key newChild children

theorem childAt_withChild (value : Option V) (key query : K) (newChild : FImmutableTree K V)
    (children : List (K × FImmutableTree K V)) :
    (FImmutableTree.node value (withChild key newChild children)).childAt query =
      if query = key then newChild else (FImmutableTree.node value children).childAt query := by
  unfold childAt withChild
  split
  · next becameEmpty =>
      simp only [FImmutableTree.children, get?_remove]
      split
      · rw [Option.getD_none, eq_empty_of_isEmpty becameEmpty]
      · rfl
  · simp only [FImmutableTree.children, get?_putChild]
    split <;> rfl

theorem childAt_putChild (value : Option V) (key query : K) (newChild : FImmutableTree K V)
    (children : List (K × FImmutableTree K V)) :
    (FImmutableTree.node value (putChild key newChild children)).childAt query =
      if query = key then newChild else (FImmutableTree.node value children).childAt query := by
  simp only [childAt, FImmutableTree.children, get?_putChild]
  split <;> rfl

theorem setValue_cons (newValue : V) (tree : FImmutableTree K V) (front : K) (rest : List K) :
    tree.setValue newValue (front :: rest) =
      .node tree.value
        (putChild front ((tree.childAt front).setValue newValue rest) tree.children) := by
  cases tree
  rfl

theorem setTree_nil (tree newTree : FImmutableTree K V) : tree.setTree newTree [] = newTree := by
  cases tree
  rfl

theorem setTree_cons (tree newTree : FImmutableTree K V) (front : K) (rest : List K) :
    tree.setTree newTree (front :: rest) =
      .node tree.value
        (withChild front ((tree.childAt front).setTree newTree rest) tree.children) := by
  cases tree
  rfl

theorem removeValueAtPath_empty (path : List K) :
    (empty : FImmutableTree K V).removeValueAtPath path = empty := by
  cases path <;> rfl

theorem removeValueAtPath_cons (tree : FImmutableTree K V) (front : K) (rest : List K) :
    tree.removeValueAtPath (front :: rest) =
      .node tree.value
        (withChild front ((tree.childAt front).removeValueAtPath rest) tree.children) := by
  obtain ⟨value, children⟩ := tree
  simp only [removeValueAtPath, childAt, FImmutableTree.children, FImmutableTree.value]
  cases held : get? front children with
  | none =>
      have unchanged : withChild front (empty : FImmutableTree K V) children = children := by
        simp [withChild, isEmpty_empty, remove_of_get? held]
      rw [Option.getD_none, removeValueAtPath_empty, unchanged]
  | some child => rfl

theorem valueAtPath_setValue (newValue : V) (tree : FImmutableTree K V) (path query : List K) :
    (tree.setValue newValue path).valueAtPath query =
      if query = path then some newValue else tree.valueAtPath query := by
  induction path generalizing tree query with
  | nil =>
      obtain ⟨value, children⟩ := tree
      cases query <;> rfl
  | cons front rest ih =>
      rw [setValue_cons]
      cases query with
      | nil => simp [FImmutableTree.value]
      | cons key below =>
          rw [valueAtPath_cons, childAt_putChild, valueAtPath_cons]
          by_cases same : key = front
          · subst same
            rw [if_pos rfl, ih]
            simp [List.cons.injEq]
          · rw [if_neg same, if_neg fun both => same (List.cons.inj both).1]
            rfl

theorem valueAtPath_removeValueAtPath (tree : FImmutableTree K V) (path query : List K) :
    (tree.removeValueAtPath path).valueAtPath query =
      if query = path then none else tree.valueAtPath query := by
  induction path generalizing tree query with
  | nil =>
      obtain ⟨value, children⟩ := tree
      cases query <;> rfl
  | cons front rest ih =>
      rw [removeValueAtPath_cons]
      cases query with
      | nil => simp [FImmutableTree.value]
      | cons key below =>
          rw [valueAtPath_cons, childAt_withChild, valueAtPath_cons]
          by_cases same : key = front
          · subst same
            rw [if_pos rfl, ih]
            simp [List.cons.injEq]
          · rw [if_neg same, if_neg fun both => same (List.cons.inj both).1]
            rfl

theorem valueAtPath_setTree (tree newTree : FImmutableTree K V) (path query : List K) :
    (tree.setTree newTree path).valueAtPath query =
      if path <+: query then newTree.valueAtPath (query.drop path.length)
      else tree.valueAtPath query := by
  induction path generalizing tree query with
  | nil => rw [setTree_nil, if_pos List.nil_prefix, List.length_nil, List.drop_zero]
  | cons front rest ih =>
      rw [setTree_cons]
      cases query with
      | nil => simp [FImmutableTree.value]
      | cons key below =>
          rw [valueAtPath_cons, childAt_withChild, valueAtPath_cons]
          by_cases same : key = front
          · subst same
            rw [if_pos rfl, ih]
            simp only [List.cons_prefix_cons, true_and, List.length_cons, List.drop_succ_cons]
          · rw [if_neg same, if_neg fun both => same (List.cons_prefix_cons.mp both).1.symm]
            rfl

/-! ## Walks -/

omit [StringComparator K] in
/-- What the block keeps at every value of the tree, a walk along a path keeps. -/
theorem forEachOnPathSoFar_of_step (Holds : σ → Prop) (block : List K → V → σ → Bool × σ)
    {tree : FImmutableTree K V}
    (step : ∀ pathSoFar above value seen, tree.valueAtPath above = some value → Holds seen →
      Holds (block pathSoFar value seen).2)
    (path pathSoFar : List K) {seen : σ} (start : Holds seen) :
    Holds (forEachOnPathSoFar block pathSoFar tree path seen) := by
  induction path generalizing tree pathSoFar seen with
  | nil =>
      obtain ⟨value, children⟩ := tree
      cases value with
      | none => exact start
      | some value => exact step pathSoFar [] value seen rfl start
  | cons front rest ih =>
      obtain ⟨value, children⟩ := tree
      have childStep : ∀ nextChild, get? front children = some nextChild →
          ∀ pathSoFar above held seen, nextChild.valueAtPath above = some held → Holds seen →
            Holds (block pathSoFar held seen).2 := by
        intro nextChild found pathSoFar above held seen there
        refine step pathSoFar (front :: above) held seen ?_
        simp only [valueAtPath, found]
        exact there
      cases value with
      | none =>
          simp only [forEachOnPathSoFar, ↓reduceIte]
          split
          · next nextChild found => exact ih (childStep nextChild found) _ start
          · exact start
      | some value =>
          have visited := step pathSoFar [] value seen rfl start
          simp only [forEachOnPathSoFar]
          split
          · split
            · next nextChild found => exact ih (childStep nextChild found) _ visited
            · exact visited
          · exact visited

/-! ## Well-formed trees -/

theorem empty_wellFormed : (empty : FImmutableTree K V).WellFormed :=
  .node List.Pairwise.nil (by simp) (by simp)

theorem initWithValue_wellFormed (value : V) :
    (initWithValue value : FImmutableTree K V).WellFormed :=
  .node List.Pairwise.nil (by simp) (by simp)

theorem WellFormed.sorted {tree : FImmutableTree K V} (wf : tree.WellFormed) :
    Sorted tree.children := by
  cases wf
  assumption

theorem WellFormed.keys_nodup {tree : FImmutableTree K V} (wf : tree.WellFormed) :
    (tree.children.map Prod.fst).Nodup :=
  Support.SortedEntries.keys_nodup wf.sorted

theorem WellFormed.childAt {tree : FImmutableTree K V} (wf : tree.WellFormed) (key : K) :
    (tree.childAt key).WellFormed := by
  obtain @⟨value, children, sorted, pruned, each⟩ := wf
  simp only [FImmutableTree.childAt, FImmutableTree.children]
  cases held : get? key children with
  | none => exact empty_wellFormed
  | some child => exact each _ (mem_of_get? held)

theorem WellFormed.putChild {value value' : Option V} {children : List (K × FImmutableTree K V)}
    (wf : (FImmutableTree.node value children).WellFormed) (key : K)
    {newChild : FImmutableTree K V} (childWf : newChild.WellFormed)
    (full : newChild.isEmpty = false) :
    (FImmutableTree.node value' (putChild key newChild children)).WellFormed := by
  obtain @⟨_, _, sorted, pruned, each⟩ := wf
  refine .node (put_sorted key newChild sorted) (fun entry member => ?_)
    (fun entry member => ?_)
  · rcases mem_put member with rfl | old
    · exact full
    · exact pruned entry old
  · rcases mem_put member with rfl | old
    · exact childWf
    · exact each entry old

theorem WellFormed.withChild {tree newChild : FImmutableTree K V} (wf : tree.WellFormed)
    (key : K) (childWf : newChild.WellFormed) :
    (FImmutableTree.node tree.value (withChild key newChild tree.children)).WellFormed := by
  obtain ⟨value, children⟩ := tree
  simp only [FImmutableTree.withChild, FImmutableTree.children]
  split
  · obtain @⟨_, _, sorted, pruned, each⟩ := wf
    exact .node (remove_sorted key sorted)
      (fun entry member => pruned entry (List.mem_of_mem_filter member))
      (fun entry member => each entry (List.mem_of_mem_filter member))
  · next full => exact wf.putChild key childWf (Bool.eq_false_iff.mpr full)

/-- Children exchanged one by one for trees that are well formed and no emptier. -/
theorem WellFormed.rebuilt {value value' : Option V} {children children' :
    List (K × FImmutableTree K V)} (wf : (FImmutableTree.node value children).WellFormed)
    {Related : K × FImmutableTree K V → K × FImmutableTree K V → Prop}
    (key : ∀ old new, Related old new → new.1 = old.1)
    (isEmpty : ∀ old new, Related old new → new.2.isEmpty = old.2.isEmpty)
    (wellFormed : ∀ old new, Related old new → old.2.WellFormed → new.2.WellFormed)
    (related : List.Forall₂ Related children children') :
    (FImmutableTree.node value' children').WellFormed := by
  obtain @⟨_, _, sorted, pruned, each⟩ := wf
  have pairs : ∀ entry ∈ children', ∃ old ∈ children, Related old entry := by
    intro entry member
    obtain ⟨index, bound, rfl⟩ := List.getElem_of_mem member
    exact ⟨_, List.getElem_mem _, related.get (related.length_eq ▸ bound) bound⟩
  refine .node (sorted.of_keys (keys_of_forall₂ key related)) ?_ ?_
  · intro entry member
    obtain ⟨old, held, paired⟩ := pairs entry member
    exact (isEmpty old entry paired).trans (pruned old held)
  · intro entry member
    obtain ⟨old, held, paired⟩ := pairs entry member
    exact wellFormed old entry paired (each old held)

theorem WellFormed.setTree {tree newTree : FImmutableTree K V} (wf : tree.WellFormed)
    (newWf : newTree.WellFormed) (path : List K) : (tree.setTree newTree path).WellFormed := by
  induction path generalizing tree with
  | nil => rwa [setTree_nil]
  | cons front rest ih =>
      rw [setTree_cons]
      exact wf.withChild front (ih (wf.childAt front))

theorem WellFormed.removeValueAtPath {tree : FImmutableTree K V} (wf : tree.WellFormed)
    (path : List K) : (tree.removeValueAtPath path).WellFormed := by
  induction path generalizing tree with
  | nil =>
      obtain @⟨value, children, sorted, pruned, each⟩ := wf
      exact .node sorted pruned each
  | cons front rest ih =>
      rw [removeValueAtPath_cons]
      exact wf.withChild front (ih (wf.childAt front))

theorem isEmpty_setValue (newValue : V) (tree : FImmutableTree K V) (path : List K) :
    (tree.setValue newValue path).isEmpty = false := by
  by_contra becameEmpty
  have none := valueAtPath_setValue newValue tree path path
  have nothing := eq_empty_of_isEmpty (Bool.eq_true_of_not_eq_false becameEmpty)
  rw [nothing, valueAtPath_empty, if_pos rfl] at none
  cases none

theorem WellFormed.setValue {tree : FImmutableTree K V} (wf : tree.WellFormed) (newValue : V)
    (path : List K) : (tree.setValue newValue path).WellFormed := by
  induction path generalizing tree with
  | nil =>
      obtain @⟨value, children, sorted, pruned, each⟩ := wf
      exact .node sorted pruned each
  | cons front rest ih =>
      rw [setValue_cons]
      obtain ⟨value, children⟩ := tree
      exact wf.putChild front (ih (wf.childAt front)) (isEmpty_setValue _ _ _)

theorem WellFormed.subtreeAtPath {tree : FImmutableTree K V} (wf : tree.WellFormed)
    (path : List K) : (tree.subtreeAtPath path).WellFormed := by
  induction path generalizing tree with
  | nil => rwa [subtreeAtPath_nil]
  | cons front rest ih =>
      rw [subtreeAtPath_cons]
      exact ih (wf.childAt front)

/-- A well-formed tree that is not empty holds a value somewhere. -/
theorem WellFormed.exists_value {tree : FImmutableTree K V} (wf : tree.WellFormed)
    (full : tree.isEmpty = false) : ∃ path value, tree.valueAtPath path = some value := by
  induction wf with
  | @node held children sorted pruned each ih =>
      cases held with
      | some held => exact ⟨[], held, rfl⟩
      | none =>
          cases children with
          | nil => cases full
          | cons entry rest =>
              have member : entry ∈ entry :: rest := List.mem_cons_self
              obtain ⟨path, value, found⟩ := ih entry member (pruned entry member)
              refine ⟨entry.1 :: path, value, ?_⟩
              rw [valueAtPath_cons]
              simpa [FImmutableTree.childAt, FImmutableTree.children, get?] using found

theorem WellFormed.isEmpty_iff {tree : FImmutableTree K V} (wf : tree.WellFormed) :
    tree.isEmpty = true ↔ ∀ path, tree.valueAtPath path = none := by
  constructor
  · intro isEmpty path
    rw [eq_empty_of_isEmpty isEmpty, valueAtPath_empty]
  · intro bare
    by_contra full
    obtain ⟨path, value, found⟩ := wf.exists_value (by simpa using full)
    rw [bare] at found
    cases found

theorem WellFormed.get?_children {tree : FImmutableTree K V} (wf : tree.WellFormed) (key : K) :
    get? key tree.children =
      if (tree.childAt key).isEmpty then none else some (tree.childAt key) := by
  obtain @⟨value, children, sorted, pruned, each⟩ := wf
  simp only [FImmutableTree.childAt, FImmutableTree.children]
  rcases Option.eq_none_or_eq_some (get? key children) with held | ⟨child, held⟩
  · simp [held]
  · simp [held, pruned _ (mem_of_get? held)]

/-- A well-formed tree is fixed by its values. -/
theorem WellFormed.ext {left right : FImmutableTree K V} (leftWf : left.WellFormed)
    (rightWf : right.WellFormed)
    (same : ∀ path, left.valueAtPath path = right.valueAtPath path) : left = right := by
  induction leftWf generalizing right with
  | @node value children sorted pruned each ih =>
      have leftWf : (FImmutableTree.node value children).WellFormed := .node sorted pruned each
      have children_same : ∀ key,
          (FImmutableTree.node value children).childAt key = right.childAt key := by
        intro key
        have below : ∀ path, ((FImmutableTree.node value children).childAt key).valueAtPath path =
            (right.childAt key).valueAtPath path := by
          intro path
          rw [← valueAtPath_cons, ← valueAtPath_cons]
          exact same (key :: path)
        cases held : get? key children with
        | none =>
            have absent : (FImmutableTree.node value children).childAt key = empty := by
              simp [FImmutableTree.childAt, FImmutableTree.children, held]
            rw [absent] at below ⊢
            have bare := (rightWf.childAt key).isEmpty_iff.mpr fun path => by
              rw [← below, valueAtPath_empty]
            exact (eq_empty_of_isEmpty bare).symm
        | some child =>
            have present : (FImmutableTree.node value children).childAt key = child := by
              simp [FImmutableTree.childAt, FImmutableTree.children, held]
            rw [present] at below ⊢
            exact ih _ (mem_of_get? held) (rightWf.childAt key) below
      have lookups : ∀ key, get? key children = get? key right.children := by
        intro key
        have leftLookup := leftWf.get?_children key
        rw [children_same] at leftLookup
        exact leftLookup.trans (rightWf.get?_children key).symm
      obtain ⟨rightValue, rightChildren⟩ := right
      have values : value = rightValue := same []
      have keys : children = rightChildren := ext_sorted sorted rightWf.sorted lookups
      rw [keys, values]

/-! ## What the traversal sees -/

theorem WellFormed.mem_entries {tree : FImmutableTree K V} (wf : tree.WellFormed)
    (path : List K) (value : V) :
    (path, value) ∈ tree.entries ↔ tree.valueAtPath path = some value := by
  induction wf generalizing path with
  | @node held children sorted pruned each ih =>
      rw [entries, entriesOfChildren_eq_flatMap, List.mem_append]
      cases path with
      | nil => cases held <;> simp [FImmutableTree.value, eq_comm]
      | cons front rest =>
          have below : (front :: rest, value) ∉
              held.toList.map fun value => (([] : List K), value) := by
            simp
          rw [or_iff_left below, valueAtPath_cons]
          simp only [List.mem_flatMap, List.mem_map, Prod.mk.injEq, List.cons.injEq, Prod.exists]
          constructor
          · rintro ⟨key, child, member, tail, _, found, ⟨rfl, rfl⟩, rfl⟩
            have lookup := (mem_iff_get? sorted _ _).mp member
            simp only [FImmutableTree.childAt, FImmutableTree.children, lookup, Option.getD_some]
            exact (ih _ member _).mp found
          · intro found
            cases lookup : get? front children with
            | none =>
                simp [FImmutableTree.childAt, FImmutableTree.children, lookup,
                  valueAtPath_empty] at found
            | some child =>
                have member := mem_of_get? lookup
                simp only [FImmutableTree.childAt, FImmutableTree.children, lookup,
                  Option.getD_some] at found
                exact ⟨front, child, member, rest, value, (ih _ member _).mpr found,
                  ⟨rfl, rfl⟩, rfl⟩

/-- The traversal sees every path once. -/
theorem WellFormed.entries_nodup {tree : FImmutableTree K V} (wf : tree.WellFormed) :
    (tree.entries.map Prod.fst).Nodup := by
  induction wf with
  | @node held children sorted pruned each ih =>
      have apart : (held.toList.map fun value => (([] : List K), value)).map Prod.fst =
          held.toList.map fun _ => [] := by
        cases held <;> rfl
      rw [entries, entriesOfChildren_eq_flatMap, List.map_append, apart, List.nodup_append]
      refine ⟨?_, by cases held <;> simp, ?_⟩
      · rw [List.map_flatMap, List.Nodup, List.pairwise_flatMap]
        constructor
        · intro child member
          have paths : (child.2.entries.map fun entry => (child.1 :: entry.1, entry.2)).map Prod.fst
              = (child.2.entries.map Prod.fst).map (child.1 :: ·) := by
            simp [Function.comp_def]
          rw [paths]
          exact (ih child member).map fun _ _ same => (List.cons.inj same).2
        · refine sorted.imp fun {left right} less => ?_
          intro leftPath leftMember rightPath rightMember same
          simp only [List.map_map, List.mem_map, Function.comp] at leftMember rightMember
          obtain ⟨_, -, rfl⟩ := leftMember
          obtain ⟨_, -, rfl⟩ := rightMember
          exact less.ne (List.cons.inj same).1
      · intro path member bare bareMember same
        cases held with
        | none => cases bareMember
        | some held =>
            obtain rfl : bare = [] := by simpa using bareMember
            subst same
            simp at member

/-! ## Runs of updates -/

inductive TreeEdit (K V : Type*) [DecidableEq K] [StringComparator K] where
  | setValue (newValue : V) (path : List K)
  | removeValueAtPath (path : List K)
  | setTree (newTree : FImmutableTree K V) (wf : newTree.WellFormed) (path : List K)

def edited (tree : FImmutableTree K V) : TreeEdit K V → FImmutableTree K V
  | .setValue newValue path => tree.setValue newValue path
  | .removeValueAtPath path => tree.removeValueAtPath path
  | .setTree newTree _ path => tree.setTree newTree path

def runEdits (edits : List (TreeEdit K V)) : FImmutableTree K V := edits.foldl edited empty

/-- The map from paths that a tree stands for, after an update. -/
def editedMap (map : List K → Option V) : TreeEdit K V → List K → Option V
  | .setValue newValue path => Function.update map path (some newValue)
  | .removeValueAtPath path => Function.update map path none
  | .setTree newTree _ path => fun query =>
      if path <+: query then newTree.valueAtPath (query.drop path.length) else map query

def editsMap (edits : List (TreeEdit K V)) : List K → Option V :=
  edits.foldl editedMap fun _ => none

theorem valueAtPath_edited (tree : FImmutableTree K V) (edit : TreeEdit K V) :
    (edited tree edit).valueAtPath = editedMap tree.valueAtPath edit := by
  funext query
  cases edit with
  | setValue newValue path =>
      simp only [edited, editedMap, valueAtPath_setValue, Function.update_apply]
  | removeValueAtPath path =>
      simp only [edited, editedMap, valueAtPath_removeValueAtPath, Function.update_apply]
  | setTree newTree wf path => exact valueAtPath_setTree tree newTree path query

theorem WellFormed.edited {tree : FImmutableTree K V} (wf : tree.WellFormed)
    (edit : TreeEdit K V) : (edited tree edit).WellFormed := by
  cases edit with
  | setValue newValue path => exact wf.setValue newValue path
  | removeValueAtPath path => exact wf.removeValueAtPath path
  | setTree newTree newWf path => exact wf.setTree newWf path

theorem runEdits_spec (edits : List (TreeEdit K V)) :
    (runEdits edits).WellFormed ∧ (runEdits edits).valueAtPath = editsMap edits := by
  unfold runEdits editsMap
  induction edits using List.reverseRecOn with
  | nil => exact ⟨empty_wellFormed, funext valueAtPath_empty⟩
  | append_singleton earlier last ih =>
      simp only [List.foldl_append, List.foldl_cons, List.foldl_nil]
      exact ⟨ih.1.edited last, by rw [valueAtPath_edited, ih.2]⟩

/-- After any updates of an empty tree, every answer of the tree is read off the map
from paths: lookups, subtrees, the value nearest to the root, the traversal. -/
theorem edits_refine_path_map (edits : List (TreeEdit K V)) (block : List K → V → σ → σ)
    (seen : σ) :
    (runEdits edits).valueAtPath = editsMap edits ∧
    ((runEdits edits).isEmpty = true ↔ ∀ path, editsMap edits path = none) ∧
    (∀ path below,
      ((runEdits edits).subtreeAtPath path).valueAtPath below = editsMap edits (path ++ below)) ∧
    (∀ path found value, (runEdits edits).findRootMostValueAndPath path = some (found, value) ↔
      found <+: path ∧ editsMap edits found = some value ∧
        ∀ above, above <+: found → above ≠ found → editsMap edits above = none) ∧
    (∃ visited : List (List K × V), (visited.map Prod.fst).Nodup ∧
      (∀ path value, (path, value) ∈ visited ↔ editsMap edits path = some value) ∧
      (runEdits edits).forEach block seen =
        visited.foldl (fun seen entry => block entry.1 entry.2 seen) seen) ∧
    ∀ others, editsMap others = editsMap edits → runEdits others = runEdits edits := by
  obtain ⟨wf, values⟩ := runEdits_spec edits
  refine ⟨values, ?_, ?_, ?_, ?_, ?_⟩
  · rw [wf.isEmpty_iff, values]
  · intro path below
    rw [valueAtPath_subtreeAtPath, values]
  · intro path found value
    rw [findRootMost_eq_some, values]
  · refine ⟨(runEdits edits).entries, wf.entries_nodup, fun path value => ?_, forEach_eq _ _ _⟩
    rw [wf.mem_entries, values]
  · intro others same
    obtain ⟨otherWf, otherValues⟩ := runEdits_spec others
    exact otherWf.ext wf fun path => by rw [values, otherValues, same]

end PicksOnMap.Source.FImmutableTree
