import PicksOnMap.Guarantees.SyncedListeners
import PicksOnMap.Guarantees.TopmostPaths

/-!
# One listen for every view

The provider listens to the topmost views and to nothing else. A registration that comes
or goes looks at one path and at the subtree below it only; that this keeps the listens
right everywhere holds in every run, whatever data the calls carry.
-/
namespace PicksOnMap.Source

open Support Support.SortedEntries

variable {K : Type} [LinearOrder K] [StringComparator K]

namespace FSyncTree

open FImmutableTree

variable {R : Type} {numbers : NumberEquality} {fireEvents : ChangeMap K → Option (FNode K) → R → R}

def HasView (tree : FSyncTree K R) (path : FPath K) : Prop :=
  (tree.syncPointTree.valueAtPath path).isSome = true

omit [LinearOrder K] [StringComparator K] in
theorem collectDistinctViewsForSubTree_eq (path : FPath K)
    (subtree : FImmutableTree K (FSyncPoint K R)) :
    collectDistinctViewsForSubTree path subtree =
      subtree.topmostPaths.map fun below => path ++ below := by
  unfold collectDistinctViewsForSubTree foldWithBlock
  rw [foldWithPathSoFar_eq path (fun _ => True) ?_ (fun _ _ => trivial) subtree trivial]
  · simp only [List.nil_append]
  · intro pathSoFar value folded _
    cases value <;> rfl

omit [LinearOrder K] [StringComparator K] in
/-- The topmost views below are those of the subtree without its own. -/
theorem queriesToStop_eq (path : FPath K) (syncPoint : Option (FSyncPoint K R))
    (children : List (K × FImmutableTree K (FSyncPoint K R))) :
    queriesToStop path (.node syncPoint children) =
      (FImmutableTree.node (none : Option (FSyncPoint K R)) children).topmostPaths.map
        fun below => path ++ below := by
  unfold queriesToStop foldWithBlock
  rw [foldWithPathSoFar, topmostPaths]
  simp only [List.isEmpty_nil, Bool.not_true, Bool.false_and, Bool.false_eq_true, ↓reduceIte,
    Option.isSome_none]
  rw [foldChildren_flatMap path (fun pathSoFar => pathSoFar ≠ []) ?_
    (fun _ _ => by simp) children]
  · simp only [List.nil_append]
  · intro pathSoFar value folded inside
    have deep : pathSoFar.isEmpty = false := by simpa using inside
    cases value <;> simp [deep, FSyncPoint.hasCompleteView]

omit [LinearOrder K] [StringComparator K] in
theorem collectDistinctViewsForSubTree_of_isEmpty (path : FPath K)
    {subtree : FImmutableTree K (FSyncPoint K R)} (bare : subtree.isEmpty = true) :
    collectDistinctViewsForSubTree path subtree = [] := by
  rw [eq_empty_of_isEmpty bare]
  rfl

omit [LinearOrder K] [StringComparator K] in
theorem foldl_startListening (started listening : List (FPath K)) :
    started.foldl startListening listening = started.reverse ++ listening := by
  induction started generalizing listening with
  | nil => rfl
  | cons first rest ih =>
      rw [List.foldl_cons, ih, List.reverse_cons, List.append_assoc, List.singleton_append,
        startListening]

/-- What the provider listens to: each topmost view, once. -/
structure Listens (tree : FSyncTree K R) : Prop where
  wellFormed : tree.syncPointTree.WellFormed
  topmost : ListsTopmost tree.HasView tree.listening

variable {tree : FSyncTree K R}

/-! ## A registration comes -/

omit [LinearOrder K] [StringComparator K] in
theorem stops_at_view (_ : FPath K) (syncPoint : FSyncPoint K R) (found : Bool) :
    (!(found || syncPoint.hasCompleteView), found || syncPoint.hasCompleteView) =
      (false, true) := by
  simp [FSyncPoint.hasCompleteView]

/-- Below a new view the listens of the topmost old ones stop. -/
theorem mem_queriesToStop (wf : tree.syncPointTree.WellFormed) {path : FPath K}
    (absent : tree.syncPointTree.valueAtPath path = none) (syncPoint : FSyncPoint K R)
    (query : FPath K) :
    query ∈ queriesToStop path
        ((tree.syncPointTree.setValue syncPoint path).subtreeAtPath path) ↔
      ∃ inner, query = path ++ inner ∧ Topmost (fun inner => tree.HasView (path ++ inner))
        inner := by
  have subtreeWf := (wf.setValue syncPoint path).subtreeAtPath path
  have values := fun below => valueAtPath_subtreeAtPath
    (tree.syncPointTree.setValue syncPoint path) path below
  generalize (tree.syncPointTree.setValue syncPoint path).subtreeAtPath path = subtree at *
  obtain @⟨top, children, sorted, pruned, each⟩ := subtreeWf
  have bareWf : (FImmutableTree.node (none : Option (FSyncPoint K R)) children).WellFormed :=
    .node sorted pruned each
  have same : (fun below => ((FImmutableTree.node (none : Option (FSyncPoint K R))
      children).valueAtPath below).isSome = true) = fun inner => tree.HasView (path ++ inner) := by
    funext below
    cases below with
    | nil => simp [HasView, absent, FImmutableTree.value]
    | cons front rest =>
        have apart : path ++ front :: rest ≠ path := by simp
        have there := values (front :: rest)
        rw [valueAtPath_setValue, if_neg apart] at there
        rw [HasView, ← there]
        rfl
  rw [queriesToStop_eq, List.mem_map]
  simp only [bareWf.mem_topmostPaths, same]
  exact exists_congr fun inner => and_comm.trans (and_congr_left' eq_comm)

theorem Listens.addEventRegistration (listens : Listens tree) (eventRegistration : R)
    (path : FPath K) :
    Listens (tree.addEventRegistration numbers fireEvents eventRegistration path) := by
  have wf := fun syncPoint => listens.wellFormed.setValue syncPoint path
  have found := forEachOnPathSoFar_eq_true stops_at_view tree.syncPointTree path []
  unfold FSyncTree.addEventRegistration
  dsimp only
  cases held : tree.syncPointTree.valueAtPath path with
  | some syncPoint =>
      refine ⟨wf _, listens.topmost.congr fun query => ?_⟩
      simp only [HasView, valueAtPath_setValue]
      split
      · next same => simp [same, held]
      · rfl
  | none =>
      have added : ∀ syncPoint query,
          ((tree.syncPointTree.setValue syncPoint path).valueAtPath query).isSome = true ↔
            tree.HasView query ∨ query = path := by
        intro syncPoint query
        simp only [HasView, valueAtPath_setValue]
        split
        · next same => simp [same]
        · next apart => simp [apart]
      have absent : ¬ tree.HasView path := by simp [HasView, held]
      dsimp only
      split
      · next ancestor =>
          obtain ⟨above, onPath, there⟩ := found.mp ancestor
          have apart : above ≠ path := fun same => absent (same ▸ there)
          refine ⟨wf _, listens.topmost.of_overshadowed (fun query differs => ?_)
            ⟨above, onPath, apart, there⟩⟩
          exact (added _ query).trans (or_iff_left differs)
      · next noAncestor =>
          have clear : ∀ above, above <+: path → ¬ tree.HasView above :=
            fun above onPath there => noAncestor (found.mpr ⟨above, onPath, there⟩)
          exact ⟨wf _, listens.topmost.add clear (added _)
            (mem_queriesToStop listens.wellFormed held _)⟩

/-! ## The last registration leaves -/

omit [StringComparator K] in
theorem findOnPath_hasCompleteView (syncPointTree : FImmutableTree K (FSyncPoint K R))
    (path : FPath K) :
    (syncPointTree.findOnPath (fun _ parentSyncPoint => some parentSyncPoint.hasCompleteView)
      path).getD false = true ↔ syncPointTree.Covered path :=
  findOnPathSoFar_eq_true (fun _ _ => rfl) syncPointTree path []

theorem hasView_removed (path query : FPath K) :
    ((tree.syncPointTree.removeValueAtPath path).valueAtPath query).isSome = true ↔
      tree.HasView query ∧ query ≠ path := by
  simp only [HasView, valueAtPath_removeValueAtPath]
  split
  · next same => simp [same]
  · next apart => simp [apart]

/-- With no view left on the path, the topmost ones below take the listen over. -/
theorem Listens.handedDown (listens : Listens tree) {path : FPath K} (held : tree.HasView path)
    (bare : ¬ (tree.syncPointTree.removeValueAtPath path).Covered path) :
    ListsTopmost
      (fun query => ((tree.syncPointTree.removeValueAtPath path).valueAtPath query).isSome = true)
      (collectDistinctViewsForSubTree path
        ((tree.syncPointTree.removeValueAtPath path).subtreeAtPath path) ++
          tree.listening.erase path) := by
  have subtreeWf := (listens.wellFormed.removeValueAtPath path).subtreeAtPath path
  rw [collectDistinctViewsForSubTree_eq]
  refine listens.topmost.remove held (fun above onPath apart there => ?_) (hasView_removed path)
    (subtreeWf.topmostPaths_nodup.map fun _ _ same => List.append_cancel_left same) fun query => ?_
  · exact bare ⟨above, onPath, (hasView_removed path above).mpr ⟨there, apart⟩⟩
  · simp only [List.mem_map, subtreeWf.mem_topmostPaths, valueAtPath_subtreeAtPath]
    exact exists_congr fun inner => and_comm.trans (and_congr_left' eq_comm)

theorem not_mem_handedDown (wf : tree.syncPointTree.WellFormed) (path : FPath K) :
    path ∉ collectDistinctViewsForSubTree path
      ((tree.syncPointTree.removeValueAtPath path).subtreeAtPath path) := by
  have subtreeWf := (wf.removeValueAtPath path).subtreeAtPath path
  rw [collectDistinctViewsForSubTree_eq, List.mem_map]
  rintro ⟨inner, member, same⟩
  have there := ((subtreeWf.mem_topmostPaths inner).mp member).1
  simp only [valueAtPath_subtreeAtPath, hasView_removed] at there
  exact there.2 same

omit [LinearOrder K] [StringComparator K] in
theorem started_eq (path : FPath K) (subtree : FImmutableTree K (FSyncPoint K R))
    (listening : List (FPath K)) :
    (if subtree.isEmpty then listening
      else (collectDistinctViewsForSubTree path subtree).foldl startListening listening) =
        (collectDistinctViewsForSubTree path subtree).reverse ++ listening := by
  split
  · next bare =>
      rw [collectDistinctViewsForSubTree_of_isEmpty path bare]
      rfl
  · exact foldl_startListening _ listening

theorem Listens.removeEventRegistration (listens : Listens tree)
    (eventRegistration : Option (R → Bool)) (path : FPath K) :
    Listens (tree.removeEventRegistration eventRegistration path false) := by
  have covered := findOnPath_hasCompleteView (tree.syncPointTree.removeValueAtPath path) path
  unfold FSyncTree.removeEventRegistration
  cases held : tree.syncPointTree.valueAtPath path with
  | none => exact listens
  | some syncPoint =>
      have there : tree.HasView path := by simp [HasView, held]
      dsimp only
      split
      · refine ⟨listens.wellFormed.removeValueAtPath path, ?_⟩
        dsimp only
        split
        · next above =>
            obtain ⟨cover, onPath, coverThere⟩ := covered.mp above
            obtain ⟨before, apart⟩ := (hasView_removed path cover).mp coverThere
            refine listens.topmost.of_overshadowed (fun query differs => ?_)
              ⟨cover, onPath, apart, before⟩
            exact (hasView_removed path query).trans (and_iff_left differs)
        · next noneAbove =>
            have lists := listens.handedDown there fun cover => noneAbove (covered.mpr cover)
            have absent := not_mem_handedDown listens.wellFormed path
            rw [started_eq, stopListening, List.erase_append_right _ (by simpa using absent)]
            exact lists.perm ((List.reverse_perm _).symm.append_right _)
      · refine ⟨listens.wellFormed.setValue _ path, listens.topmost.congr fun query => ?_⟩
        simp only [HasView, valueAtPath_setValue]
        split
        · next same => simp [same, held]
        · rfl

theorem Listens.listenFailed (listens : Listens tree) {path : FPath K}
    (listened : path ∈ tree.listening) : Listens (tree.listenFailed path) := by
  have covered := findOnPath_hasCompleteView (tree.syncPointTree.removeValueAtPath path) path
  have topmost := (listens.topmost.mem_iff path).mp listened
  have bare : ¬ (tree.syncPointTree.removeValueAtPath path).Covered path := by
    rintro ⟨above, onPath, there⟩
    obtain ⟨before, apart⟩ := (hasView_removed path above).mp there
    exact topmost.2 above onPath apart before
  obtain ⟨syncPoint, held⟩ := Option.isSome_iff_exists.mp topmost.1
  unfold FSyncTree.listenFailed FSyncTree.removeEventRegistration
  have noneLeft : (FView.removeEventRegistration syncPoint none).isEmpty = true := rfl
  simp only [held, noneLeft, ↓reduceIte]
  refine ⟨listens.wellFormed.removeValueAtPath path, ?_⟩
  dsimp only
  rw [if_neg fun above => bare (covered.mp above), started_eq]
  exact (listens.handedDown topmost.1 bare).perm ((List.reverse_perm _).symm.append_right _)

/-! ## Operations -/

theorem isSome_of_applyToSyncPoint {operation : FOperation K} {writesCache : FWriteTreeRef K}
    {serverCache : Option (FNode K)} {syncPoint syncPoint' : Option (FSyncPoint K R)}
    (applied : applyToSyncPoint numbers fireEvents operation writesCache serverCache syncPoint =
      some syncPoint') : syncPoint'.isSome = syncPoint.isSome := by
  cases syncPoint with
  | none =>
      obtain rfl := Option.some.inj applied
      rfl
  | some view =>
      obtain ⟨view', -, rfl⟩ := Option.map_eq_some_iff.mp applied
      rfl

mutual

theorem applyOperationDescendantsHelper_sameShape {operation : FOperation K}
    {serverCache : Option (FNode K)} {writesCache : FWriteTreeRef K}
    (tree : FImmutableTree K (FSyncPoint K R)) {tree' : FImmutableTree K (FSyncPoint K R)}
    (walked : applyOperationDescendantsHelper numbers fireEvents operation serverCache writesCache
      tree = some tree') : SameShape tree tree' := by
  match tree with
  | .node syncPoint children =>
      rw [applyOperationDescendantsHelper] at walked
      obtain ⟨children', below, walked⟩ := Option.bind_eq_some_iff.mp walked
      obtain ⟨syncPoint', applied, walked⟩ := Option.bind_eq_some_iff.mp walked
      obtain rfl := Option.some.inj walked
      exact sameShape_node (isSome_of_applyToSyncPoint applied)
        (applyOperationToChildren_sameShape children below)

theorem applyOperationToChildren_sameShape {operation : FOperation K}
    {serverCache : Option (FNode K)} {writesCache : FWriteTreeRef K}
    (children : List (K × FImmutableTree K (FSyncPoint K R)))
    {children' : List (K × FImmutableTree K (FSyncPoint K R))}
    (walked : applyOperationToChildren numbers fireEvents operation serverCache writesCache
      children = some children') : List.Forall₂ SameChild children children' := by
  match children with
  | [] =>
      obtain rfl := Option.some.inj walked
      exact .nil
  | (childKey, childTree) :: rest =>
      rw [applyOperationToChildren] at walked
      split at walked
      · obtain ⟨childTree', below, walked⟩ := Option.bind_eq_some_iff.mp walked
        obtain ⟨rest', others, walked⟩ := Option.bind_eq_some_iff.mp walked
        obtain rfl := Option.some.inj walked
        exact .cons ⟨rfl, applyOperationDescendantsHelper_sameShape childTree below⟩
          (applyOperationToChildren_sameShape rest others)
      · obtain ⟨childTree', below, walked⟩ := Option.bind_eq_some_iff.mp walked
        obtain ⟨rest', others, walked⟩ := Option.bind_eq_some_iff.mp walked
        obtain rfl := Option.some.inj walked
        obtain rfl := Option.some.inj below
        exact .cons ⟨rfl, .refl _⟩ (applyOperationToChildren_sameShape rest others)

end

theorem applyOperationHelper_sameShape {path : FPath K} {operation : FOperation K}
    {serverCache : Option (FNode K)} {writesCache : FWriteTreeRef K}
    {tree tree' : FImmutableTree K (FSyncPoint K R)} (wf : tree.WellFormed)
    (walked : applyOperationHelper numbers fireEvents path operation serverCache writesCache
      tree = some tree') : SameShape tree tree' := by
  induction path generalizing operation serverCache writesCache tree tree' with
  | nil => exact applyOperationDescendantsHelper_sameShape tree walked
  | cons childKey rest ih =>
      obtain @⟨syncPoint, children, sorted, pruned, each⟩ := wf
      rw [applyOperationHelper] at walked
      split at walked
      · next childTree childOperation held descends =>
          obtain ⟨children', below, walked⟩ := Option.bind_eq_some_iff.mp walked
          obtain ⟨syncPoint', applied, walked⟩ := Option.bind_eq_some_iff.mp walked
          obtain rfl := Option.some.inj walked
          obtain ⟨childTree', inner, rfl⟩ := Option.map_eq_some_iff.mp below
          exact sameShape_node (isSome_of_applyToSyncPoint applied)
            (forall₂_sameChild_putChild sorted held (ih (each _ (mem_of_get? held)) inner))
      · obtain ⟨children', below, walked⟩ := Option.bind_eq_some_iff.mp walked
        obtain ⟨syncPoint', applied, walked⟩ := Option.bind_eq_some_iff.mp walked
        obtain rfl := Option.some.inj walked
        obtain rfl := Option.some.inj below
        exact sameShape_node (isSome_of_applyToSyncPoint applied)
          (forall₂_sameChild_refl children)

/-- Operations change what the views hold, not where they are. -/
theorem Listens.applyOperationToSyncPoints (listens : Listens tree) {tree' : FSyncTree K R}
    {operation : FOperation K}
    (applied : tree.applyOperationToSyncPoints numbers fireEvents operation = some tree') :
    Listens tree' := by
  obtain ⟨syncPointTree, walked, applied⟩ := Option.bind_eq_some_iff.mp applied
  obtain rfl := Option.some.inj applied
  have shape := applyOperationHelper_sameShape listens.wellFormed walked
  refine ⟨shape.wellFormed listens.wellFormed, listens.topmost.congr fun query => ?_⟩
  rw [HasView, HasView, shape.isSome]

/-! ## Runs -/

/-- The application removes registrations for no error. -/
def Call.Asked : Call K → Prop
  | .removeEventRegistration _ _ cancelError => cancelError = false
  | _ => True

theorem Listens.call {tree tree' : FSyncTree K (Listener K)} (listens : Listens tree)
    {step : Call K}
    (asked : step.Asked) (called : tree.call numbers step = some tree') : Listens tree' := by
  have rewritten : ∀ pendingWriteTree, Listens { tree with pendingWriteTree } :=
    fun _ => ⟨listens.wellFormed, listens.topmost⟩
  cases step with
  | applyUserOverwriteAtPath path newData writeId =>
      exact (rewritten _).applyOperationToSyncPoints called
  | ackUserWriteWithWriteId writeId revert =>
      obtain ⟨write, -, called⟩ := Option.bind_eq_some_iff.mp called
      obtain ⟨⟨needToReevaluate, pendingWriteTree⟩, -, called⟩ :=
        Option.bind_eq_some_iff.mp called
      dsimp only at called
      split at called
      · exact (rewritten _).applyOperationToSyncPoints called
      · obtain rfl := Option.some.inj called
        exact rewritten _
  | removeAllWrites =>
      unfold FSyncTree.call FSyncTree.removeAllWrites at called
      dsimp only at called
      split at called
      · obtain rfl := Option.some.inj called
        exact rewritten _
      · exact (rewritten _).applyOperationToSyncPoints called
  | applyServerOverwriteAtPath path newData => exact listens.applyOperationToSyncPoints called
  | applyServerMergeAtPath path changedChildren =>
      exact listens.applyOperationToSyncPoints called
  | applyListenCompleteAtPath path => exact listens.applyOperationToSyncPoints called
  | addEventRegistration path =>
      obtain rfl := Option.some.inj called
      exact listens.addEventRegistration Listener.new path
  | removeEventRegistration isMatch path cancelError =>
      obtain rfl : cancelError = false := asked
      obtain rfl := Option.some.inj called
      exact listens.removeEventRegistration isMatch path

/-- The trees of any run: the data of a call may be anything, and a listen may fail at
any time. -/
inductive Occurs (numbers : NumberEquality) : FSyncTree K (Listener K) → Prop
  | init : Occurs numbers init
  | call {tree tree' : FSyncTree K (Listener K)} (occurs : Occurs numbers tree) (step : Call K)
      (asked : step.Asked) (called : tree.call numbers step = some tree') : Occurs numbers tree'
  | listenFailed {tree : FSyncTree K (Listener K)} (occurs : Occurs numbers tree) {path : FPath K}
      (listened : path ∈ tree.listening) : Occurs numbers (tree.listenFailed path)

theorem listens_init : Listens (init : FSyncTree K R) := by
  refine ⟨FImmutableTree.empty_wellFormed, List.nodup_nil, fun path => ?_⟩
  refine iff_of_false List.not_mem_nil fun topmost => ?_
  have there := topmost.1
  rw [HasView, init, valueAtPath_empty] at there
  cases there

theorem Occurs.listens {tree : FSyncTree K (Listener K)} (occurs : Occurs numbers tree) :
    Listens tree := by
  induction occurs with
  | init => exact listens_init
  | call occurs step asked called ih => exact ih.call asked called
  | listenFailed occurs listened ih => exact ih.listenFailed listened

section Samples

/-- A listener below the root, and then one at the root that takes its listen over. -/
def sampleBoth : FSyncTree SampleKey (Listener SampleKey) :=
  (init.addEventRegistration FView.sampleNumbers Listener.hear Listener.new
    [sampleCoffee]).addEventRegistration FView.sampleNumbers Listener.hear
      Listener.new []

theorem sampleBoth_refused_occurs : Occurs FView.sampleNumbers (sampleBoth.listenFailed []) :=
  ((Occurs.init.call (.addEventRegistration [sampleCoffee]) trivial rfl).call
    (.addEventRegistration []) trivial rfl).listenFailed List.mem_cons_self

end Samples

end FSyncTree

end PicksOnMap.Source
