import PicksOnMap.Guarantees.RelativeWrites
import PicksOnMap.Guarantees.ViewEvents

/-!
# Which sync points an operation reaches, and as what

Source pin: Pods/FirebaseDatabase, FSyncTree.m:742-816; FOverwrite.m:46-56;
FMerge.m:49-65; FAckUserWrite.m:37-49; FListenComplete.m:39-45.

The walk down the operation's path and on to everything below changes no sync point but
those at, above and below that path, and each of them gets the operation relative to
its own path.
-/
namespace PicksOnMap.Source

open Support.SortedEntries

variable {K : Type} [LinearOrder K] [StringComparator K]

/-! ## The operation at a path -/

namespace FOperation

/-- The operation as the sync point at a path gets it, if it gets it. -/
def operationAt : FPath K → FOperation K → Option (FOperation K)
  | [], operation => some operation
  | key :: below, operation =>
      if operation.path.head?.all (fun front => decide (front = key)) then
        (operation.operationForChild key).bind (operationAt below)
      else none

omit [StringComparator K] in
theorem path_operationForChild {operation child : FOperation K} {key : K}
    (descends : operation.operationForChild key = some child) :
    child.path = operation.path.tail := by
  unfold operationForChild at descends
  split at descends
  · obtain rfl := Option.some.inj descends
    rfl
  · obtain rfl := Option.some.inj descends
    rfl
  · dsimp only at descends
    split at descends
    · cases descends
    · split at descends <;> obtain rfl := Option.some.inj descends <;> rfl
  · obtain rfl := Option.some.inj descends
    rfl
  · obtain rfl := Option.some.inj descends
    rfl
  · obtain rfl := Option.some.inj descends
    rfl

theorem Sound.operationForChild {operation child : FOperation K} (sound : operation.Sound)
    {key : K} (descends : operation.operationForChild key = some child) : child.Sound := by
  unfold FOperation.operationForChild at descends
  split at descends
  · obtain rfl := Option.some.inj descends
    exact FNode.WellFormed.getImmediateChild sound key
  · obtain rfl := Option.some.inj descends
    exact sound
  · next children =>
      have childCanonical := FCompoundWrite.Canonical.childCompoundWriteAtPath sound [key]
      dsimp only at descends
      split at descends
      · cases descends
      · split at descends
        · next snap root =>
            obtain rfl := Option.some.inj descends
            refine childCanonical.nodes [] snap ?_
            rw [← root]
            exact FImmutableTree.valueAtPath_nil
              (children.childCompoundWriteAtPath [key]).writeTree
        · obtain rfl := Option.some.inj descends
          exact childCanonical
  · obtain rfl := Option.some.inj descends
    exact sound
  · obtain rfl := Option.some.inj descends
    trivial
  · obtain rfl := Option.some.inj descends
    trivial

omit [StringComparator K] in
/-- What an operation hands on to its children, it hands on to every path. -/
theorem operationAt_of_child {Holds : FOperation K → Prop}
    (step : ∀ {operation child key}, Holds operation →
      operation.operationForChild key = some child → Holds child)
    {operation relative : FOperation K} (holds : Holds operation) {path : FPath K}
    (reaches : operation.operationAt path = some relative) : Holds relative := by
  induction path generalizing operation with
  | nil =>
      obtain rfl := Option.some.inj reaches
      exact holds
  | cons key below ih =>
      rw [operationAt] at reaches
      split at reaches
      · obtain ⟨child, descends, further⟩ := Option.bind_eq_some_iff.mp reaches
        exact ih (step holds descends) further
      · cases reaches

theorem Sound.operationAt {operation relative : FOperation K} (sound : operation.Sound)
    {path : FPath K} (reaches : operation.operationAt path = some relative) : relative.Sound :=
  operationAt_of_child (fun holds descends => holds.operationForChild descends) sound reaches

omit [StringComparator K] in
theorem operationAt_overwrite (source : FOperationSource) (path : FPath K)
    (write : FPath K × FNode K) :
    (FOperation.overwrite source write.1 write.2).operationAt path =
      (relativeWrite path write).map fun relative => .overwrite source relative.1 relative.2 := by
  induction path generalizing write with
  | nil => rfl
  | cons key below ih =>
      obtain ⟨other, node⟩ := write
      cases other with
      | nil => exact ih ([], node.getImmediateChild key)
      | cons front rest =>
          rw [operationAt, relativeWrite]
          by_cases same : front = key
          · simpa [FOperation.path, same, operationForChild] using ih (rest, node)
          · simp [FOperation.path, same]

omit [StringComparator K] in
/-- Operations that affect everything below their path in the same way. -/
theorem operationAt_of_tail (operation : FPath K → FOperation K)
    (own : ∀ path, (operation path).path = path)
    (descends : ∀ path key, (operation path).operationForChild key = some (operation path.tail))
    (path other : FPath K) :
    (operation other).operationAt path = (FPath.seenFrom path other).map operation := by
  induction path generalizing other with
  | nil => rfl
  | cons key below ih =>
      rw [operationAt, own, descends, Option.bind_some, ih]
      cases other with
      | nil =>
          have rooted : FPath.seenFrom below [] = some [] := by cases below <;> rfl
          simp [FPath.seenFrom, rooted]
      | cons front rest =>
          by_cases same : front = key
          · simp [FPath.seenFrom, same]
          · simp [FPath.seenFrom, same]

omit [StringComparator K] in
theorem operationAt_ackUserWrite (ackPath : FPath K) (revert : Bool) (path : FPath K) :
    (FOperation.ackUserWrite ackPath revert).operationAt path =
      (FPath.seenFrom path ackPath).map fun relative => .ackUserWrite relative revert :=
  operationAt_of_tail (fun path => .ackUserWrite path revert) (fun _ => rfl) (fun _ _ => rfl)
    path ackPath

/-- The operation brings data of the server. -/
def FromServer : FOperation K → Prop
  | .overwrite source _ _ => source = .server
  | .merge _ _ => True
  | .ackUserWrite _ _ => False
  | .listenComplete _ => True

omit [StringComparator K] in
theorem FromServer.operationForChild {operation child : FOperation K}
    (server : operation.FromServer) {key : K}
    (descends : operation.operationForChild key = some child) : child.FromServer := by
  unfold FOperation.operationForChild at descends
  split at descends
  · obtain rfl := Option.some.inj descends
    exact server
  · obtain rfl := Option.some.inj descends
    exact server
  · dsimp only at descends
    split at descends
    · cases descends
    · split at descends <;> obtain rfl := Option.some.inj descends
      · rfl
      · trivial
  · obtain rfl := Option.some.inj descends
    trivial
  · cases server
  · obtain rfl := Option.some.inj descends
    trivial

omit [StringComparator K] in
theorem FromServer.operationAt {operation relative : FOperation K} (server : operation.FromServer)
    {path : FPath K} (reaches : operation.operationAt path = some relative) :
    relative.FromServer :=
  operationAt_of_child (fun holds descends => holds.operationForChild descends) server reaches

end FOperation

/-! ## The walk -/

namespace FSyncTree

variable {R : Type} {numbers : NumberEquality} {fireEvents : ChangeMap K → Option (FNode K) → R → R}

/-- What an operation does to the sync point at a path below the one it was called on. -/
def AppliedAt (numbers : NumberEquality) (fireEvents : ChangeMap K → Option (FNode K) → R → R)
    (operation : FOperation K) (writesCache : FWriteTreeRef K) (path : FPath K)
    (old new : Option (FSyncPoint K R)) : Prop :=
  match old, operation.operationAt path with
  | some view, some relative =>
      ∃ serverCache view', (∀ node, serverCache = some node → node.WellFormed) ∧
        FView.applyOperation numbers fireEvents view relative
          ⟨writesCache.path ++ path, writesCache.writeTree⟩ serverCache = some view' ∧
        new = some view'
  | _, _ => new = old

theorem AppliedAt.absent (operation : FOperation K) (writesCache : FWriteTreeRef K)
    (path : FPath K) :
    AppliedAt numbers fireEvents operation writesCache path none none := rfl

theorem AppliedAt.of_unreached {operation : FOperation K} {writesCache : FWriteTreeRef K}
    {path : FPath K} (unreached : operation.operationAt path = none)
    (syncPoint : Option (FSyncPoint K R)) :
    AppliedAt numbers fireEvents operation writesCache path syncPoint syncPoint := by
  unfold AppliedAt
  rw [unreached]
  cases syncPoint <;> rfl

/-- One key down the path, as the child's own walk has it. -/
theorem AppliedAt.cons {operation child : FOperation K} {writesCache : FWriteTreeRef K} {key : K}
    (onPath : operation.path.head?.all (fun front => decide (front = key)) = true)
    (descends : operation.operationForChild key = some child) {below : FPath K}
    {old new : Option (FSyncPoint K R)}
    (applied : AppliedAt numbers fireEvents child (writesCache.childWriteTreeRef key) below old
      new) :
    AppliedAt numbers fireEvents operation writesCache (key :: below) old new := by
  unfold AppliedAt at applied ⊢
  rw [FOperation.operationAt, if_pos onPath, descends, Option.bind_some]
  simpa only [FWriteTreeRef.childWriteTreeRef, List.append_assoc, List.singleton_append] using
    applied

/-- Every view in the tree has well-formed caches. -/
def AllSound (tree : FImmutableTree K (FSyncPoint K R)) : Prop :=
  ∀ path view, tree.valueAtPath path = some view → view.viewCache.Sound

omit [StringComparator K] in
theorem AllSound.childAt {tree : FImmutableTree K (FSyncPoint K R)} (sound : AllSound tree)
    (key : K) : AllSound (tree.childAt key) := by
  intro path view held
  rw [← FImmutableTree.valueAtPath_cons] at held
  exact sound (key :: path) view held

omit [StringComparator K] in
theorem resolvedServerCache_wellFormed {syncPoint : Option (FSyncPoint K R)}
    (sound : ∀ view, syncPoint = some view → view.viewCache.Sound) {serverCache : Option (FNode K)}
    (serverWf : ∀ node, serverCache = some node → node.WellFormed) {node : FNode K}
    (resolved : resolvedServerCache serverCache syncPoint = some node) : node.WellFormed := by
  unfold resolvedServerCache at resolved
  split at resolved
  · next view =>
      obtain ⟨cache, complete, rfl⟩ := Option.map_eq_some_iff.mp resolved
      exact ((sound view rfl).completeServerSnap complete).getChild []
  · exact serverWf node resolved

section Walk

variable {writesCache : FWriteTreeRef K}
  (canonical : writesCache.writeTree.visibleWrites.Canonical) {operation : FOperation K}
  (operationSound : operation.Sound) {serverCache : Option (FNode K)}
  (serverWf : ∀ node, serverCache = some node → node.WellFormed)
include canonical operationSound serverWf

theorem applyToSyncPoint_spec (numbers : NumberEquality)
    (fireEvents : ChangeMap K → Option (FNode K) → R → R) {syncPoint : Option (FSyncPoint K R)}
    (sound : ∀ view, syncPoint = some view → view.viewCache.Sound) :
    ∃ syncPoint', applyToSyncPoint numbers fireEvents operation writesCache serverCache
        syncPoint = some syncPoint' ∧
      syncPoint'.isNone = syncPoint.isNone ∧
      AppliedAt numbers fireEvents operation writesCache [] syncPoint syncPoint' := by
  cases syncPoint with
  | none => exact ⟨none, rfl, rfl, .absent operation writesCache []⟩
  | some view =>
      obtain ⟨view', applied, -, -⟩ := FView.applyOperation_eq_some canonical
        operationSound serverWf numbers fireEvents view (sound view rfl)
      refine ⟨some view', ?_, rfl, serverCache, view', serverWf, ?_, rfl⟩
      · simp only [applyToSyncPoint, applied, Option.map_some]
      · rw [List.append_nil]
        exact applied

end Walk

/-- What becomes of one child of a node that the operation covers. -/
structure ChildApplied (numbers : NumberEquality)
    (fireEvents : ChangeMap K → Option (FNode K) → R → R)
    (operation : FOperation K) (writesCache : FWriteTreeRef K)
    (old new : K × FImmutableTree K (FSyncPoint K R)) : Prop where
  key : new.1 = old.1
  wellFormed : new.2.WellFormed
  isEmpty : new.2.isEmpty = old.2.isEmpty
  applied : ∀ below, AppliedAt numbers fireEvents operation writesCache (old.1 :: below)
    (old.2.valueAtPath below) (new.2.valueAtPath below)

/-- A node put together again after its sync point and its children were gone through. -/
theorem rebuilt_spec {operation : FOperation K} {writesCache : FWriteTreeRef K}
    {syncPoint syncPoint' : Option (FSyncPoint K R)}
    {children children' : List (K × FImmutableTree K (FSyncPoint K R))}
    (wf : (FImmutableTree.node syncPoint children).WellFormed)
    (there : syncPoint'.isNone = syncPoint.isNone)
    (top : AppliedAt numbers fireEvents operation writesCache [] syncPoint syncPoint')
    (each : List.Forall₂ (ChildApplied numbers fireEvents operation writesCache) children
      children') :
    (FImmutableTree.node syncPoint' children').WellFormed ∧
      (FImmutableTree.node syncPoint' children').isEmpty =
        (FImmutableTree.node syncPoint children).isEmpty ∧
      ∀ path, AppliedAt numbers fireEvents operation writesCache path
        ((FImmutableTree.node syncPoint children).valueAtPath path)
        ((FImmutableTree.node syncPoint' children').valueAtPath path) := by
  have key : ∀ old new, ChildApplied numbers fireEvents operation writesCache old new →
      new.1 = old.1 := fun _ _ => ChildApplied.key
  refine ⟨wf.rebuilt key (fun _ _ => ChildApplied.isEmpty)
    (fun _ _ paired _ => paired.wellFormed) each,
    FImmutableTree.isEmpty_rebuilt there each, ?_⟩
  intro path
  cases path with
  | nil => exact top
  | cons front below =>
      simp only [FImmutableTree.valueAtPath]
      rcases get?_of_forall₂ key each front with ⟨absent, absent'⟩ | ⟨child, child', held, held',
        paired⟩
      · rw [absent, absent']
        exact .absent operation writesCache _
      · rw [held, held']
        exact paired.applied below

mutual

/-- Everything below a covered path gets its part of the operation. -/
theorem applyOperationDescendantsHelper_spec {operation : FOperation K}
    (operationSound : operation.Sound) (rooted : operation.path = [])
    {writesCache : FWriteTreeRef K} (canonical : writesCache.writeTree.visibleWrites.Canonical)
    {serverCache : Option (FNode K)}
    (serverWf : ∀ node, serverCache = some node → node.WellFormed) :
    ∀ tree : FImmutableTree K (FSyncPoint K R), tree.WellFormed → AllSound tree →
      ∃ tree', applyOperationDescendantsHelper numbers fireEvents operation serverCache writesCache
          tree = some tree' ∧
        tree'.WellFormed ∧ tree'.isEmpty = tree.isEmpty ∧
        ∀ path, AppliedAt numbers fireEvents operation writesCache path (tree.valueAtPath path)
          (tree'.valueAtPath path)
  | .node syncPoint children, wf, sound => by
      have topSound : ∀ view, syncPoint = some view → view.viewCache.Sound :=
        fun view held => sound [] view held
      have resolvedWf : ∀ node, resolvedServerCache serverCache syncPoint = some node →
          node.WellFormed := fun node => resolvedServerCache_wellFormed topSound serverWf
      have sorted := wf.sorted
      obtain ⟨children', walked, each⟩ := applyOperationToChildren_spec operationSound rooted
        canonical resolvedWf children (by
          cases wf
          assumption) (by
          intro child member path view held
          have found : get? child.1 children = some child.2 :=
            FImmutableTree.get?_of_mem sorted member
          refine sound (child.1 :: path) view ?_
          simp only [FImmutableTree.valueAtPath, found]
          exact held)
      obtain ⟨syncPoint', applied, there, top⟩ := applyToSyncPoint_spec canonical operationSound
        resolvedWf numbers fireEvents topSound
      refine ⟨.node syncPoint' children', ?_, rebuilt_spec wf there top each⟩
      simp only [applyOperationDescendantsHelper, walked, applied, Option.bind_eq_bind,
        Option.bind_some, Option.pure_def]

theorem applyOperationToChildren_spec {operation : FOperation K}
    (operationSound : operation.Sound) (rooted : operation.path = [])
    {writesCache : FWriteTreeRef K} (canonical : writesCache.writeTree.visibleWrites.Canonical)
    {serverCache : Option (FNode K)}
    (serverWf : ∀ node, serverCache = some node → node.WellFormed) :
    ∀ children : List (K × FImmutableTree K (FSyncPoint K R)),
      (∀ child ∈ children, child.2.WellFormed) → (∀ child ∈ children, AllSound child.2) →
      ∃ children', applyOperationToChildren numbers fireEvents operation serverCache writesCache
          children = some children' ∧
        List.Forall₂ (ChildApplied numbers fireEvents operation writesCache) children children'
  | [], _, _ => ⟨[], rfl, .nil⟩
  | (childKey, childTree) :: rest, wf, sound => by
      obtain ⟨rest', walked, each⟩ := applyOperationToChildren_spec operationSound rooted canonical
        serverWf rest (fun child member => wf child (List.mem_cons_of_mem _ member))
        fun child member => sound child (List.mem_cons_of_mem _ member)
      have childWf := wf (childKey, childTree) List.mem_cons_self
      have onPath : operation.path.head?.all (fun front => decide (front = childKey)) = true := by
        simp [rooted]
      cases descends : operation.operationForChild childKey with
      | none =>
          refine ⟨(childKey, childTree) :: rest', ?_, .cons ⟨rfl, childWf, rfl, ?_⟩ each⟩
          · simp only [applyOperationToChildren, descends, walked, Option.bind_eq_bind,
              Option.bind_some, Option.pure_def]
          · intro below
            refine .of_unreached ?_ _
            rw [FOperation.operationAt, if_pos onPath, descends, Option.bind_none]
      | some childOperation =>
          have childRooted : childOperation.path = [] := by
            rw [FOperation.path_operationForChild descends, rooted, List.tail_nil]
          have childServerWf : ∀ node, serverCache.map (fun cache =>
              cache.getImmediateChild childKey) = some node → node.WellFormed := by
            intro node cached
            obtain ⟨cache, held, rfl⟩ := Option.map_eq_some_iff.mp cached
            exact (serverWf cache held).getImmediateChild childKey
          have childCanonical :
              (writesCache.childWriteTreeRef childKey).writeTree.visibleWrites.Canonical :=
            canonical
          obtain ⟨childTree', childWalked, childWf', sameEmpty, applied⟩ :=
            applyOperationDescendantsHelper_spec (operationSound.operationForChild descends)
              childRooted childCanonical childServerWf childTree childWf
              (sound (childKey, childTree) List.mem_cons_self)
          refine ⟨(childKey, childTree') :: rest', ?_,
            .cons ⟨rfl, childWf', sameEmpty, fun below => (applied below).cons onPath descends⟩
              each⟩
          simp only [applyOperationToChildren, descends, childWalked, walked, Option.bind_eq_bind,
            Option.bind_some, Option.pure_def]

end

/-- The children after the walk went on below one of them. -/
theorem walkedOn_spec {operation child : FOperation K} {writesCache : FWriteTreeRef K} {key : K}
    {rest : FPath K} (own : operation.path = key :: rest)
    (descends : operation.operationForChild key = some child)
    {syncPoint syncPoint' : Option (FSyncPoint K R)}
    {children : List (K × FImmutableTree K (FSyncPoint K R))}
    (wf : (FImmutableTree.node syncPoint children).WellFormed)
    (there : syncPoint'.isNone = syncPoint.isNone)
    (top : AppliedAt numbers fireEvents operation writesCache [] syncPoint syncPoint')
    {childTree childTree' : FImmutableTree K (FSyncPoint K R)}
    (held : get? key children = some childTree) (childWf : childTree'.WellFormed)
    (sameEmpty : childTree'.isEmpty = childTree.isEmpty)
    (applied : ∀ below, AppliedAt numbers fireEvents child (writesCache.childWriteTreeRef key)
      below (childTree.valueAtPath below) (childTree'.valueAtPath below)) :
    (FImmutableTree.node syncPoint' (FImmutableTree.putChild key childTree' children)).WellFormed ∧
      (FImmutableTree.node syncPoint' (FImmutableTree.putChild key childTree' children)).isEmpty =
        (FImmutableTree.node syncPoint children).isEmpty ∧
      ∀ path, AppliedAt numbers fireEvents operation writesCache path
        ((FImmutableTree.node syncPoint children).valueAtPath path)
        ((FImmutableTree.node syncPoint'
          (FImmutableTree.putChild key childTree' children)).valueAtPath path) := by
  have full : childTree'.isEmpty = false := by
    obtain @⟨_, _, _, pruned, _⟩ := wf
    exact sameEmpty.trans (pruned _ (mem_of_get? held))
  refine ⟨wf.putChild key childWf full, ?_, fun path => ?_⟩
  · have before : children.isEmpty = false := by
      cases children with
      | nil => cases held
      | cons first others => rfl
    have after : (FImmutableTree.putChild key childTree' children).isEmpty = false :=
      List.isEmpty_eq_false_iff.mpr (FImmutableTree.putChild_ne_nil key childTree' children)
    simp only [FImmutableTree.isEmpty, FImmutableTree.value, FImmutableTree.children, there,
      before, after]
  · cases path with
    | nil => exact top
    | cons front below =>
        simp only [FImmutableTree.valueAtPath, FImmutableTree.get?_putChild]
        by_cases same : front = key
        · subst same
          have onPath : operation.path.head?.all
              (fun front' => decide (front' = front)) = true := by
            simp [own]
          rw [if_pos rfl, held]
          exact (applied below).cons onPath descends
        · rw [if_neg same]
          refine .of_unreached ?_ _
          rw [FOperation.operationAt, own, if_neg]
          simpa using Ne.symm same

/-- The tree after the walk stopped above its path: only the sync point there is new. -/
theorem stopped_spec {operation : FOperation K} {writesCache : FWriteTreeRef K} {key : K}
    {rest : FPath K} (own : operation.path = key :: rest)
    {syncPoint syncPoint' : Option (FSyncPoint K R)}
    {children : List (K × FImmutableTree K (FSyncPoint K R))}
    (wf : (FImmutableTree.node syncPoint children).WellFormed)
    (there : syncPoint'.isNone = syncPoint.isNone)
    (top : AppliedAt numbers fireEvents operation writesCache [] syncPoint syncPoint')
    (onPath : ∀ below, AppliedAt numbers fireEvents operation writesCache (key :: below)
      ((FImmutableTree.node syncPoint children).valueAtPath (key :: below))
      ((FImmutableTree.node syncPoint children).valueAtPath (key :: below))) :
    (FImmutableTree.node syncPoint' children).WellFormed ∧
      (FImmutableTree.node syncPoint' children).isEmpty =
        (FImmutableTree.node syncPoint children).isEmpty ∧
      ∀ path, AppliedAt numbers fireEvents operation writesCache path
        ((FImmutableTree.node syncPoint children).valueAtPath path)
        ((FImmutableTree.node syncPoint' children).valueAtPath path) := by
  obtain @⟨_, _, sorted, pruned, each⟩ := wf
  refine ⟨.node sorted pruned each, ?_, fun path => ?_⟩
  · simp only [FImmutableTree.isEmpty, FImmutableTree.value, FImmutableTree.children, there]
  · cases path with
    | nil => exact top
    | cons front below =>
        by_cases same : front = key
        · exact same ▸ onPath below
        · refine .of_unreached ?_ _
          rw [FOperation.operationAt, own, if_neg]
          simpa using Ne.symm same

/-- The walk to the operation's path and on: no view raises, and every sync point gets the
operation that is meant for it. -/
theorem applyOperationHelper_spec (numbers : NumberEquality)
    (fireEvents : ChangeMap K → Option (FNode K) → R → R) {operation : FOperation K}
    (operationSound : operation.Sound)
    {path : FPath K} (own : operation.path = path) {writesCache : FWriteTreeRef K}
    (canonical : writesCache.writeTree.visibleWrites.Canonical)
    {serverCache : Option (FNode K)} (serverWf : ∀ node, serverCache = some node → node.WellFormed)
    {tree : FImmutableTree K (FSyncPoint K R)} (wf : tree.WellFormed) (sound : AllSound tree) :
    ∃ tree', applyOperationHelper numbers fireEvents path operation serverCache writesCache tree =
        some tree' ∧
      tree'.WellFormed ∧ tree'.isEmpty = tree.isEmpty ∧
      ∀ query, AppliedAt numbers fireEvents operation writesCache query (tree.valueAtPath query)
        (tree'.valueAtPath query) := by
  induction path generalizing operation writesCache serverCache tree with
  | nil =>
      exact applyOperationDescendantsHelper_spec operationSound own canonical serverWf tree wf sound
  | cons front rest ih =>
      obtain ⟨syncPoint, children⟩ := tree
      have topSound : ∀ view, syncPoint = some view → view.viewCache.Sound :=
        fun view held => sound [] view held
      have resolvedWf : ∀ node, resolvedServerCache serverCache syncPoint = some node →
          node.WellFormed := fun node => resolvedServerCache_wellFormed topSound serverWf
      obtain ⟨syncPoint', applied, there, top⟩ := applyToSyncPoint_spec canonical operationSound
        resolvedWf numbers fireEvents topSound
      cases held : get? front children with
      | none =>
          refine ⟨.node syncPoint' children, ?_, stopped_spec own wf there top fun below => ?_⟩
          · simp only [applyOperationHelper, held, applied, Option.bind_eq_bind,
              Option.bind_some, Option.pure_def]
          · simp only [FImmutableTree.valueAtPath, held]
            exact .absent operation writesCache _
      | some childTree =>
          cases descends : operation.operationForChild front with
          | none =>
              refine ⟨.node syncPoint' children, ?_, stopped_spec own wf there top fun below =>
                .of_unreached ?_ _⟩
              · simp only [applyOperationHelper, held, descends, applied, Option.bind_eq_bind,
                  Option.bind_some, Option.pure_def]
              · rw [FOperation.operationAt, own, if_pos (by simp), descends, Option.bind_none]
          | some childOperation =>
              have childOwn : childOperation.path = rest := by
                rw [FOperation.path_operationForChild descends, own, List.tail_cons]
              have childServerWf : ∀ node, (resolvedServerCache serverCache syncPoint).map
                  (fun cache => cache.getImmediateChild front) = some node → node.WellFormed := by
                intro node cached
                obtain ⟨cache, there, rfl⟩ := Option.map_eq_some_iff.mp cached
                exact (resolvedWf cache there).getImmediateChild front
              have childCanonical :
                  (writesCache.childWriteTreeRef front).writeTree.visibleWrites.Canonical :=
                canonical
              have childAt :
                  (FImmutableTree.node syncPoint children).childAt front = childTree := by
                simp [FImmutableTree.childAt, FImmutableTree.children, held]
              obtain ⟨childTree', walked, childWf', sameEmpty, below⟩ :=
                ih (operationSound.operationForChild descends) childOwn childCanonical childServerWf
                  (childAt ▸ wf.childAt front) (childAt ▸ sound.childAt front)
              refine ⟨.node syncPoint' (FImmutableTree.putChild front childTree' children), ?_,
                walkedOn_spec own descends wf there top held childWf' sameEmpty below⟩
              simp only [applyOperationHelper, held, descends, walked, applied, Option.map_some,
                Option.bind_eq_bind, Option.bind_some, Option.pure_def]

/-- An operation applied to the whole tree. -/
theorem applyOperationToSyncPoints_spec (numbers : NumberEquality)
    (fireEvents : ChangeMap K → Option (FNode K) → R → R) {tree : FSyncTree K R}
    (wf : tree.syncPointTree.WellFormed) (sound : AllSound tree.syncPointTree)
    (canonical : tree.pendingWriteTree.visibleWrites.Canonical) {operation : FOperation K}
    (operationSound : operation.Sound) :
    ∃ tree', tree.applyOperationToSyncPoints numbers fireEvents operation = some tree' ∧
      tree'.pendingWriteTree = tree.pendingWriteTree ∧ tree'.listening = tree.listening ∧
      tree'.syncPointTree.WellFormed ∧
      ∀ path, AppliedAt numbers fireEvents operation ⟨[], tree.pendingWriteTree⟩ path
        (tree.syncPointTree.valueAtPath path) (tree'.syncPointTree.valueAtPath path) := by
  have none : ∀ node, (none : Option (FNode K)) = some node → node.WellFormed :=
    fun _ absent => nomatch absent
  have rooted : (⟨[], tree.pendingWriteTree⟩ : FWriteTreeRef K).writeTree.visibleWrites.Canonical :=
    canonical
  obtain ⟨syncPointTree, walked, wf', -, applied⟩ := applyOperationHelper_spec numbers fireEvents
    operationSound rfl rooted none wf sound
  refine ⟨{ tree with syncPointTree }, ?_, rfl, rfl, wf', applied⟩
  simp only [applyOperationToSyncPoints, walked, Option.bind_eq_bind, Option.bind_some,
    Option.pure_def]

end FSyncTree

end PicksOnMap.Source
