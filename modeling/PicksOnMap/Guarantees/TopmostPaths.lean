import PicksOnMap.Guarantees.PathTrees
import PicksOnMap.Support.Topmost

/-!
# Topmost values of a path tree

A fold that stops at values collects the topmost paths, each once; a walk that stops at
the first value says whether a path is covered. Both depend only on where values are,
which a pass over the tree that rewrites them in place does not change.
-/
namespace PicksOnMap.Source

open Support Support.SortedEntries
open scoped StringComparator

namespace FImmutableTree

universe u

variable {K V : Type u}

/-! ## The topmost values -/

mutual

def topmostPaths : FImmutableTree K V → List (List K)
  | .node value children => if value.isSome then [[]] else topmostOfChildren children

def topmostOfChildren : List (K × FImmutableTree K V) → List (List K)
  | [] => []
  | (childKey, childTree) :: rest =>
      childTree.topmostPaths.map (childKey :: ·) ++ topmostOfChildren rest

end

theorem topmostOfChildren_eq_flatMap (children : List (K × FImmutableTree K V)) :
    topmostOfChildren children =
      children.flatMap fun child => child.2.topmostPaths.map (child.1 :: ·) := by
  induction children with
  | nil => rfl
  | cons child rest ih =>
      obtain ⟨childKey, childTree⟩ := child
      rw [topmostOfChildren, List.flatMap_cons, ih]

mutual

/-- A fold that keeps a value's path and drops what is below collects the topmost paths. -/
theorem foldWithPathSoFar_eq (path : List K)
    {block : List K → Option V → List (K × List (List K)) → List (List K)}
    (Inside : List K → Prop)
    (answers : ∀ pathSoFar value folded, Inside pathSoFar → block pathSoFar value folded =
      if value.isSome then [path ++ pathSoFar] else folded.flatMap Prod.snd)
    (deeper : ∀ pathSoFar key, Inside (pathSoFar ++ [key])) (tree : FImmutableTree K V)
    {pathSoFar : List K} (inside : Inside pathSoFar) :
    foldWithPathSoFar block pathSoFar tree =
      tree.topmostPaths.map fun below => path ++ (pathSoFar ++ below) := by
  match tree with
  | .node value children =>
      rw [foldWithPathSoFar, answers _ _ _ inside,
        foldChildren_flatMap path Inside answers deeper children, topmostPaths]
      split
      · simp
      · rfl

theorem foldChildren_flatMap (path : List K)
    {block : List K → Option V → List (K × List (List K)) → List (List K)}
    (Inside : List K → Prop)
    (answers : ∀ pathSoFar value folded, Inside pathSoFar → block pathSoFar value folded =
      if value.isSome then [path ++ pathSoFar] else folded.flatMap Prod.snd)
    (deeper : ∀ pathSoFar key, Inside (pathSoFar ++ [key]))
    (children : List (K × FImmutableTree K V)) {pathSoFar : List K} :
    (foldChildren block pathSoFar children).flatMap Prod.snd =
      (topmostOfChildren children).map fun below => path ++ (pathSoFar ++ below) := by
  match children with
  | [] => rfl
  | (childKey, childTree) :: rest =>
      rw [foldChildren, List.flatMap_cons, foldChildren_flatMap path Inside answers deeper rest,
        foldWithPathSoFar_eq path Inside answers deeper childTree (deeper pathSoFar childKey),
        topmostOfChildren, List.map_append, List.map_map]
      simp only [Function.comp_def, List.append_assoc, List.singleton_append]

end

variable [DecidableEq K] [StringComparator K]

theorem WellFormed.mem_topmostPaths {tree : FImmutableTree K V} (wf : tree.WellFormed)
    (path : List K) :
    path ∈ tree.topmostPaths ↔ Topmost (fun query => (tree.valueAtPath query).isSome = true)
      path := by
  induction wf generalizing path with
  | @node value children sorted pruned each ih =>
      unfold topmostPaths
      cases value with
      | some value =>
          simp only [Option.isSome_some, ↓reduceIte, List.mem_singleton]
          constructor
          · rintro rfl
            exact ⟨rfl, fun above onPath apart => absurd (List.prefix_nil.mp onPath) apart⟩
          · intro topmost
            by_contra below
            exact topmost.2 [] List.nil_prefix (Ne.symm below) rfl
      | none =>
          simp only [Option.isSome_none, Bool.false_eq_true, ↓reduceIte,
            topmostOfChildren_eq_flatMap, List.mem_flatMap, List.mem_map]
          cases path with
          | nil =>
              refine iff_of_false ?_ fun topmost => Bool.false_ne_true topmost.1
              rintro ⟨child, -, inner, -, same⟩
              cases same
          | cons front rest =>
              have bare : ¬ ((FImmutableTree.node none children).valueAtPath []).isSome = true :=
                Bool.false_ne_true
              rw [topmost_cons bare]
              simp only [List.cons.injEq, valueAtPath]
              constructor
              · rintro ⟨child, member, inner, found, rfl, rfl⟩
                simp only [(mem_iff_get? sorted _ _).mp member]
                exact (ih _ member _).mp found
              · intro topmost
                cases held : get? front children with
                | none =>
                    simp only [held] at topmost
                    exact absurd topmost.1 Bool.false_ne_true
                | some child =>
                    simp only [held] at topmost
                    have member := mem_of_get? held
                    exact ⟨_, member, rest, (ih _ member _).mpr topmost, rfl, rfl⟩

theorem WellFormed.topmostPaths_nodup {tree : FImmutableTree K V} (wf : tree.WellFormed) :
    tree.topmostPaths.Nodup := by
  induction wf with
  | @node value children sorted pruned each ih =>
      unfold topmostPaths
      split
      · exact List.nodup_singleton _
      · rw [topmostOfChildren_eq_flatMap, List.Nodup, List.pairwise_flatMap]
        constructor
        · intro child member
          exact (ih child member).map fun _ _ same => (List.cons.inj same).2
        · refine sorted.imp fun {left right} less => ?_
          intro leftPath leftMember rightPath rightMember same
          obtain ⟨_, -, rfl⟩ := List.mem_map.mp leftMember
          obtain ⟨_, -, rfl⟩ := List.mem_map.mp rightMember
          exact less.ne (List.cons.inj same).1

/-! ## What lies on a path -/

/-- Some value lies at the path or above it. -/
def Covered (tree : FImmutableTree K V) (path : List K) : Prop :=
  ∃ above, above <+: path ∧ (tree.valueAtPath above).isSome = true

omit [StringComparator K] in
theorem covered_nil (value : Option V) (children : List (K × FImmutableTree K V)) :
    Covered (.node value children) [] ↔ value.isSome = true := by
  constructor
  · rintro ⟨above, onPath, held⟩
    obtain rfl := List.prefix_nil.mp onPath
    exact held
  · exact fun held => ⟨[], List.nil_prefix, held⟩

omit [StringComparator K] in
theorem covered_cons (value : Option V) (children : List (K × FImmutableTree K V)) (front : K)
    (rest : List K) :
    Covered (.node value children) (front :: rest) ↔
      value.isSome = true ∨ ∃ child, get? front children = some child ∧ child.Covered rest := by
  constructor
  · rintro ⟨above, onPath, held⟩
    cases above with
    | nil => exact .inl held
    | cons head tail =>
        obtain ⟨rfl, onRest⟩ := List.cons_prefix_cons.mp onPath
        simp only [valueAtPath] at held
        split at held
        · next child found => exact .inr ⟨child, found, tail, onRest, held⟩
        · cases held
  · rintro (held | ⟨child, found, above, onRest, held⟩)
    · exact ⟨[], List.nil_prefix, held⟩
    · refine ⟨front :: above, List.cons_prefix_cons.mpr ⟨rfl, onRest⟩, ?_⟩
      simpa only [valueAtPath, found] using held

omit [StringComparator K] in
/-- A walk that stops at the first value finds whether the path is covered. -/
theorem forEachOnPathSoFar_eq_true {block : List K → V → Bool → Bool × Bool}
    (stops : ∀ pathSoFar value found, block pathSoFar value found = (false, true))
    (tree : FImmutableTree K V) (path pathSoFar : List K) :
    forEachOnPathSoFar block pathSoFar tree path false = true ↔ tree.Covered path := by
  induction path generalizing tree pathSoFar with
  | nil =>
      obtain ⟨value, children⟩ := tree
      rw [covered_nil]
      cases value <;> simp [forEachOnPathSoFar, stops]
  | cons front rest ih =>
      obtain ⟨value, children⟩ := tree
      rw [covered_cons]
      cases value with
      | some value => simp [forEachOnPathSoFar, stops]
      | none =>
          simp only [forEachOnPathSoFar, Option.isSome_none, Bool.false_eq_true, false_or,
            ↓reduceIte]
          cases get? front children with
          | none => simp
          | some child => simpa using ih child (pathSoFar ++ [front])

omit [StringComparator K] in
theorem findOnPathSoFar_eq_true {block : List K → V → Option Bool}
    (answers : ∀ pathSoFar value, block pathSoFar value = some true)
    (tree : FImmutableTree K V) (path pathSoFar : List K) :
    (findOnPathSoFar block pathSoFar tree path).getD false = true ↔ tree.Covered path := by
  induction path generalizing tree pathSoFar with
  | nil =>
      obtain ⟨value, children⟩ := tree
      rw [covered_nil]
      cases value <;> simp [findOnPathSoFar, answers]
  | cons front rest ih =>
      obtain ⟨value, children⟩ := tree
      rw [covered_cons]
      cases value with
      | some value => simp [findOnPathSoFar, answers]
      | none =>
          simp only [findOnPathSoFar, Option.isSome_none, Bool.false_eq_true, false_or,
            Option.bind_none]
          cases get? front children with
          | none => simp
          | some child => simpa using ih child (pathSoFar ++ [front])

/-! ## Values rewritten in place -/

/-- The same paths hold values, and the one tree is well formed if the other is. -/
structure SameShape (tree tree' : FImmutableTree K V) : Prop where
  wellFormed : tree.WellFormed → tree'.WellFormed
  isEmpty : tree'.isEmpty = tree.isEmpty
  isSome : ∀ path, (tree'.valueAtPath path).isSome = (tree.valueAtPath path).isSome

theorem SameShape.refl (tree : FImmutableTree K V) : SameShape tree tree :=
  ⟨id, rfl, fun _ => rfl⟩

/-- One child before and after. -/
def SameChild (old new : K × FImmutableTree K V) : Prop :=
  new.1 = old.1 ∧ SameShape old.2 new.2

theorem sameShape_node {value value' : Option V} (there : value'.isSome = value.isSome)
    {children children' : List (K × FImmutableTree K V)}
    (each : List.Forall₂ SameChild children children') :
    SameShape (.node value children) (.node value' children') := by
  have key : ∀ old new : K × FImmutableTree K V, SameChild old new → new.1 = old.1 :=
    fun _ _ => And.left
  have absent : value'.isNone = value.isNone := by
    rw [← Option.not_isSome, ← Option.not_isSome, there]
  refine ⟨fun wf => wf.rebuilt key (fun _ _ same => same.2.isEmpty)
    (fun _ _ same => same.2.wellFormed) each, isEmpty_rebuilt absent each, fun path => ?_⟩
  cases path with
  | nil => exact there
  | cons front rest =>
      simp only [FImmutableTree.valueAtPath]
      rcases get?_of_forall₂ key each front with ⟨gone, gone'⟩ | ⟨child, child', held, held',
        same⟩
      · rw [gone, gone']
      · rw [held, held']
        exact same.2.isSome rest

theorem forall₂_sameChild_refl (children : List (K × FImmutableTree K V)) :
    List.Forall₂ SameChild children children :=
  List.forall₂_same.mpr fun _ _ => ⟨rfl, .refl _⟩

/-- One child is put again where it was. -/
theorem forall₂_sameChild_putChild {children : List (K × FImmutableTree K V)}
    (sorted : Sorted children) {key : K} {child child' : FImmutableTree K V}
    (held : get? key children = some child)
    (same : SameShape child child') :
    List.Forall₂ SameChild children (putChild key child' children) := by
  unfold putChild
  induction children with
  | nil => cases held
  | cons first rest ih =>
      obtain ⟨firstKey, firstTree⟩ := first
      obtain ⟨above, sortedRest⟩ := List.pairwise_cons.mp sorted
      unfold get? at held
      unfold put
      split at held
      · next here =>
          obtain rfl := Option.some.inj held
          rw [if_pos here]
          exact .cons ⟨here, same⟩ (forall₂_sameChild_refl rest)
      · next apart =>
          have later : ¬ key < firstKey := (above _ (mem_of_get? held)).not_gt
          rw [if_neg apart, if_neg later]
          exact .cons ⟨rfl, .refl _⟩ (ih sortedRest held)

end FImmutableTree

end PicksOnMap.Source
