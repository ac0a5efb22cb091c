import PicksOnMap.Source.ViewProcessor

/-!
# The views of all paths

Source pin: Pods/FirebaseDatabase, FView.m:78-112,122-218; FSyncPoint.m:75-208,222-255;
FSyncTree.m:160-245,273-277,368-456,468-540,559-571,601-622,647-707,742-816;
FPersistentConnection.m:670-680.

One query per path, which loads all data: a sync point is its view, and one without
a view is not in the tree. Persistence is off, as in the application, so the calls of its
manager are calls of nil. Left out: tagged and limited queries, merges of the user,
range merges, the reads of transactions. What a listen is told at its start and the
hash it is sent with are left out too; a listen is known by its path.
-/
namespace PicksOnMap.Source

open Support.SortedEntries

variable {K : Type} [LinearOrder K] [StringComparator K]

/-- What the registrations of a view are, and what they do with its events, is up to
their class. -/
structure FView (K R : Type) where
  viewCache : FViewCache K
  eventRegistrations : List R

namespace FView

variable {R : Type} (numbers : NumberEquality) (fireEvents : ChangeMap K → Option (FNode K) → R → R)

/-- The filter of a query that loads all data takes both nodes over as they are. -/
def initWithInitialViewCache (initialViewCache : FViewCache K) : FView K R where
  viewCache :=
    { cachedEventSnap :=
        { initialViewCache.cachedEventSnap with
          node := (FIndexedFilter.updateFullNode numbers .emptyNode
            initialViewCache.cachedEventSnap.node).1
          isFiltered := false }
      cachedServerSnap :=
        { initialViewCache.cachedServerSnap with
          node := (FIndexedFilter.updateFullNode numbers .emptyNode
            initialViewCache.cachedServerSnap.node).1
          isFiltered := false } }
  eventRegistrations := []

def completeServerCacheFor (view : FView K R) (path : FPath K) : Option (FNode K) :=
  view.viewCache.completeServerSnap.map fun cache => cache.getChild path

def isEmpty (view : FView K R) : Bool := view.eventRegistrations.isEmpty

/-- The events that a new registration starts with. -/
def initialEvents (view : FView K R) : R → R :=
  let eventSnap := view.viewCache.cachedEventSnap
  fireEvents (eventSnap.node.enumerated.map fun child => (child.1, FChange.childAdded child.2))
    (if eventSnap.isFullyInitialized then some eventSnap.node else none)

def addEventRegistration (view : FView K R) (eventRegistration : R) : FView K R :=
  { view with eventRegistrations :=
      view.eventRegistrations ++ [view.initialEvents fireEvents eventRegistration] }

/-- Every registration that matches goes; `none` matches all of them. -/
def removeEventRegistration (view : FView K R)
    (eventRegistration : Option (R → Bool)) : FView K R :=
  { view with eventRegistrations :=
      match eventRegistration with
      | some isMatch => view.eventRegistrations.filter fun existing => !isMatch existing
      | none => [] }

def applyOperation (view : FView K R) (operation : FOperation K) (writesCache : FWriteTreeRef K)
    (serverCache : Option (FNode K)) : Option (FView K R) :=
  (FViewProcessor.applyOperationOn numbers view.viewCache operation writesCache serverCache).map
    fun result =>
      { viewCache := result.viewCache
        eventRegistrations :=
          view.eventRegistrations.map (fireEvents result.changes result.value) }

end FView

abbrev FSyncPoint := FView

namespace FSyncPoint

variable {R : Type} (numbers : NumberEquality) (fireEvents : ChangeMap K → Option (FNode K) → R → R)

/-- The sync point that the first registration at a path brings. -/
def addEventRegistrationForNonExistingView (eventRegistration : R) (writesCache : FWriteTreeRef K)
    (serverCache : FCacheNode K) : FSyncPoint K R :=
  let eventCacheNode :=
    match writesCache.calculateCompleteEventCacheWithCompleteServerCache
      (if serverCache.isFullyInitialized then some serverCache.node else none) with
    | some eventCache => ⟨eventCache, true, false⟩
    | none =>
        ⟨writesCache.calculateCompleteEventChildrenWithCompleteServerChildren serverCache.node,
          false, false⟩
  (FView.initWithInitialViewCache numbers ⟨eventCacheNode, serverCache⟩).addEventRegistration
    fireEvents eventRegistration

def completeServerCacheAtPath (syncPoint : FSyncPoint K R) (path : FPath K) : Option (FNode K) :=
  syncPoint.completeServerCacheFor path

/-- Each view here loads all data. -/
def hasCompleteView (_ : FSyncPoint K R) : Bool := true

end FSyncPoint

/-- `listening` is what the listen provider has been told to start and not to stop. -/
structure FSyncTree (K R : Type) where
  syncPointTree : FImmutableTree K (FSyncPoint K R)
  pendingWriteTree : FWriteTree K
  listening : List (FPath K)

namespace FSyncTree

variable {R : Type} (numbers : NumberEquality) (fireEvents : ChangeMap K → Option (FNode K) → R → R)

def init : FSyncTree K R := ⟨.empty, .init, []⟩

/-! ## Operations go to every sync point above and below -/

/-- The server data from above or else the sync point's own. -/
def resolvedServerCache (serverCache : Option (FNode K)) (syncPoint : Option (FSyncPoint K R)) :
    Option (FNode K) :=
  match serverCache, syncPoint with
  | none, some syncPoint => syncPoint.completeServerCacheAtPath []
  | serverCache, _ => serverCache

/-- `none` is the exception of a view's accumulator, here and below. -/
def applyToSyncPoint (operation : FOperation K) (writesCache : FWriteTreeRef K)
    (serverCache : Option (FNode K)) : Option (FSyncPoint K R) → Option (Option (FSyncPoint K R))
  | some syncPoint =>
      (FView.applyOperation numbers fireEvents syncPoint operation writesCache serverCache).map some
  | none => some none

mutual

def applyOperationDescendantsHelper (operation : FOperation K) (serverCache : Option (FNode K))
    (writesCache : FWriteTreeRef K) :
    FImmutableTree K (FSyncPoint K R) → Option (FImmutableTree K (FSyncPoint K R))
  | .node syncPoint children => do
      let serverCache := resolvedServerCache serverCache syncPoint
      let children ← applyOperationToChildren operation serverCache writesCache children
      let syncPoint ← applyToSyncPoint numbers fireEvents operation writesCache serverCache
        syncPoint
      return .node syncPoint children

def applyOperationToChildren (operation : FOperation K) (serverCache : Option (FNode K))
    (writesCache : FWriteTreeRef K) :
    List (K × FImmutableTree K (FSyncPoint K R)) →
      Option (List (K × FImmutableTree K (FSyncPoint K R)))
  | [] => some []
  | (childKey, childTree) :: rest => do
      let childServerCache := serverCache.map fun cache => cache.getImmediateChild childKey
      let childWritesCache := writesCache.childWriteTreeRef childKey
      let childTree ←
        match operation.operationForChild childKey with
        | some childOperation =>
            applyOperationDescendantsHelper childOperation childServerCache childWritesCache
              childTree
        | none => some childTree
      let rest ← applyOperationToChildren operation serverCache writesCache rest
      return (childKey, childTree) :: rest

end

/-- The recursion is on the operation's path, given once more. -/
def applyOperationHelper : FPath K → FOperation K → Option (FNode K) → FWriteTreeRef K →
    FImmutableTree K (FSyncPoint K R) → Option (FImmutableTree K (FSyncPoint K R))
  | [], operation, serverCache, writesCache, syncPointTree =>
      applyOperationDescendantsHelper numbers fireEvents operation serverCache writesCache
        syncPointTree
  | childKey :: rest, operation, serverCache, writesCache, .node syncPoint children => do
      let serverCache := resolvedServerCache serverCache syncPoint
      let childServerCache := serverCache.map fun cache => cache.getImmediateChild childKey
      let childWritesCache := writesCache.childWriteTreeRef childKey
      let children ←
        match get? childKey children, operation.operationForChild childKey with
        | some childTree, some childOperation =>
            (applyOperationHelper rest childOperation childServerCache childWritesCache
              childTree).map fun childTree => FImmutableTree.putChild childKey childTree children
        | _, _ => some children
      let syncPoint ← applyToSyncPoint numbers fireEvents operation writesCache serverCache
        syncPoint
      return .node syncPoint children

def applyOperationToSyncPoints (tree : FSyncTree K R) (operation : FOperation K) :
    Option (FSyncTree K R) := do
  let syncPointTree ← applyOperationHelper numbers fireEvents operation.path operation none
    ⟨[], tree.pendingWriteTree⟩ tree.syncPointTree
  return { tree with syncPointTree }

def applyUserOverwriteAtPath (tree : FSyncTree K R) (path : FPath K) (newData : FNode K)
    (writeId : Int)
    (visible : Bool) : Option (FSyncTree K R) :=
  let pendingWriteTree := tree.pendingWriteTree.addOverwriteAtPath path newData writeId visible
  if visible then
    applyOperationToSyncPoints numbers fireEvents { tree with pendingWriteTree }
      (.overwrite .user path newData)
  else some { tree with pendingWriteTree }

/-- `none` is also the exception of an identifier that no record has. -/
def ackUserWriteWithWriteId (tree : FSyncTree K R) (writeId : Int) (revert : Bool) :
    Option (FSyncTree K R) := do
  let write ← tree.pendingWriteTree.writeForId writeId
  let (needToReevaluate, pendingWriteTree) ← tree.pendingWriteTree.removeWriteId writeId
  if needToReevaluate then
    applyOperationToSyncPoints numbers fireEvents { tree with pendingWriteTree }
      (.ackUserWrite write.path revert)
  else some { tree with pendingWriteTree }

def applyServerOverwriteAtPath (tree : FSyncTree K R) (path : FPath K) (newData : FNode K) :
    Option (FSyncTree K R) :=
  applyOperationToSyncPoints numbers fireEvents tree (.overwrite .server path newData)

def applyServerMergeAtPath (tree : FSyncTree K R) (path : FPath K)
    (changedChildren : FCompoundWrite K) :
    Option (FSyncTree K R) :=
  applyOperationToSyncPoints numbers fireEvents tree (.merge path changedChildren)

def applyListenCompleteAtPath (tree : FSyncTree K R) (path : FPath K) : Option (FSyncTree K R) :=
  applyOperationToSyncPoints numbers fireEvents tree (.listenComplete path)

def removeAllWrites (tree : FSyncTree K R) : Option (FSyncTree K R) :=
  let (removedWrites, pendingWriteTree) := tree.pendingWriteTree.removeAllWrites
  if removedWrites.isEmpty then some { tree with pendingWriteTree }
  else
    applyOperationToSyncPoints numbers fireEvents { tree with pendingWriteTree }
      (.ackUserWrite [] true)

/-! ## Registrations and listens -/

/-- The server data of the first complete view on the path, or else the children that
views right below have complete. -/
def serverCacheForQuery (tree : FSyncTree K R) (path : FPath K) : FCacheNode K :=
  let serverCacheNode := tree.syncPointTree.forEachOnPath
    (fun pathToSyncPoint syncPoint _ =>
      let serverCacheNode := syncPoint.completeServerCacheAtPath
        (FPath.within pathToSyncPoint path)
      (serverCacheNode.isNone, serverCacheNode))
    path none
  match serverCacheNode with
  | some serverCacheNode => ⟨serverCacheNode, true, false⟩
  | none =>
      let subtree := tree.syncPointTree.subtreeAtPath path
      let serverCacheNode := subtree.forEachChild
        (fun childKey childSyncPoint serverCacheNode =>
          match childSyncPoint.completeServerCacheAtPath [] with
          | some completeCache => FNode.updateImmediateChild serverCacheNode childKey completeCache
          | none => serverCacheNode)
        FNode.emptyNode
      ⟨serverCacheNode, false, false⟩

/-- The topmost views of a subtree, by their paths. -/
def collectDistinctViewsForSubTree (path : FPath K) (subtree : FImmutableTree K (FSyncPoint K R)) :
    List (FPath K) :=
  subtree.foldWithBlock fun relativePath maybeChildSyncPoint childMap =>
    if maybeChildSyncPoint.any FSyncPoint.hasCompleteView then [path ++ relativePath]
    else childMap.flatMap Prod.snd

/-- What a new listen shadows: the topmost views strictly below it. -/
def queriesToStop (path : FPath K) (subtree : FImmutableTree K (FSyncPoint K R)) : List (FPath K) :=
  subtree.foldWithBlock fun relativePath maybeChildSyncPoint childMap =>
    if !relativePath.isEmpty && maybeChildSyncPoint.any FSyncPoint.hasCompleteView then
      [path ++ relativePath]
    else childMap.flatMap Prod.snd

def startListening (listening : List (FPath K)) (path : FPath K) : List (FPath K) :=
  path :: listening

def stopListening (listening : List (FPath K)) (path : FPath K) : List (FPath K) :=
  listening.erase path

def setupListenerOnQuery (tree : FSyncTree K R) (path : FPath K) : FSyncTree K R :=
  let started := startListening tree.listening path
  let subtree := tree.syncPointTree.subtreeAtPath path
  { tree with listening := (queriesToStop path subtree).foldl stopListening started }

def addEventRegistration (tree : FSyncTree K R) (eventRegistration : R) (path : FPath K) :
    FSyncTree K R :=
  let foundAncestorDefaultView := tree.syncPointTree.forEachOnPath
    (fun _ syncPoint found =>
      let found := found || syncPoint.hasCompleteView
      (!found, found))
    path false
  match tree.syncPointTree.valueAtPath path with
  | some syncPoint =>
      let syncPoint := FView.addEventRegistration fireEvents syncPoint eventRegistration
      { tree with syncPointTree := tree.syncPointTree.setValue syncPoint path }
  | none =>
      let syncPoint := FSyncPoint.addEventRegistrationForNonExistingView numbers fireEvents
        eventRegistration ⟨path, tree.pendingWriteTree⟩ (tree.serverCacheForQuery path)
      let tree := { tree with syncPointTree := tree.syncPointTree.setValue syncPoint path }
      if foundAncestorDefaultView then tree else tree.setupListenerOnQuery path

/-- After an error of the listen (`cancelError`) the provider has stopped by itself. -/
def removeEventRegistration (tree : FSyncTree K R) (eventRegistration : Option (R → Bool))
    (path : FPath K) (cancelError : Bool) : FSyncTree K R :=
  match tree.syncPointTree.valueAtPath path with
  | none => tree
  | some maybeSyncPoint =>
      let syncPoint := maybeSyncPoint.removeEventRegistration eventRegistration
      if syncPoint.isEmpty then
        let syncPointTree := tree.syncPointTree.removeValueAtPath path
        let covered := syncPointTree.findOnPath
          (fun _ parentSyncPoint => some parentSyncPoint.hasCompleteView) path
        let listening :=
          if covered.getD false then tree.listening
          else
            let subtree := syncPointTree.subtreeAtPath path
            let started :=
              if subtree.isEmpty then tree.listening
              else (collectDistinctViewsForSubTree path subtree).foldl startListening tree.listening
            if cancelError then started else stopListening started path
        { tree with syncPointTree, listening }
      else { tree with syncPointTree := tree.syncPointTree.setValue syncPoint path }

/-- The provider drops a listen that the server refused, and then reports it. -/
def listenFailed (tree : FSyncTree K R) (path : FPath K) : FSyncTree K R :=
  removeEventRegistration { tree with listening := stopListening tree.listening path } none path
    true

end FSyncTree

end PicksOnMap.Source
