import PicksOnMap.Source.WriteTree

/-!
# What an operation does to a view

Source pin: Pods/FirebaseDatabase, FLeafNode.m:139-151; FChildrenNode.m:279-307;
FWriteTreeRef.m:62-131; FIndexedFilter.m:40-128; FChildChangeAccumulator.m:35-78;
FViewCache.m:29-59; FViewProcessor.m:86-101,129-226,228-419,469-660; FOverwrite.m:46-56;
FMerge.m:49-65; FAckUserWrite.m:37-49; FListenComplete.m:39-45.

A view without limits: its filter is `FIndexedFilter`, which filters nothing, so the
branches of a filter that does are left out, and so are priorities. The calls of
`trackChildChange` are listed in their order and tracked when the operation is done;
nothing reads the accumulator before. Merges of the user are left out, as the
application never calls `updateChildValues`.
-/
namespace PicksOnMap.Source

open Support.SortedEntries

variable {K : Type} [LinearOrder K] [StringComparator K]

/-- `NSNumber isEqual:` on doubles. Whether the two zeros are equal is left open. -/
structure NumberEquality where
  isEqual : Double → Double → Bool
  refl : ∀ d, isEqual d d = true
  symm : ∀ {d e}, isEqual d e = true → isEqual e d = true
  trans : ∀ {d e f}, isEqual d e = true → isEqual e f = true → isEqual d f = true

def FValue.isEqual (numbers : NumberEquality) : FValue → FValue → Bool
  | .string s, .string t => s = t
  | .number d, .number e => numbers.isEqual d e
  | _, _ => false

namespace FNode

mutual

/-- The source asks the other node's child; which side is asked makes no difference. -/
def isEqual (numbers : NumberEquality) : FNode K → FNode K → Bool
  | .leaf value, .leaf other => other.isEqual numbers value
  | .children entries, .children others =>
      entries.length == others.length && childrenEqual numbers entries (.children others)
  | _, _ => false

def childrenEqual (numbers : NumberEquality) : List (K × FNode K) → FNode K → Bool
  | [], _ => true
  | (key, node) :: rest, other =>
      isEqual numbers node (other.getImmediateChild key) && childrenEqual numbers rest other

end

def isLeafNode : FNode K → Bool
  | .leaf _ => true
  | .children _ => false

/-- What `enumerateChildrenUsingBlock` visits. -/
def enumerated : FNode K → List (K × FNode K)
  | .leaf _ => []
  | .children entries => entries

end FNode

/-! ## Writes seen from one path -/

structure FWriteTreeRef (K : Type) where
  path : FPath K
  writeTree : FWriteTree K

namespace FWriteTreeRef

def calculateCompleteEventCacheWithCompleteServerCache (writes : FWriteTreeRef K)
    (completeServerCache : Option (FNode K)) : Option (FNode K) :=
  writes.writeTree.calculateCompleteEventCacheAtPath writes.path completeServerCache none false

def calculateCompleteEventChildrenWithCompleteServerChildren (writes : FWriteTreeRef K)
    (completeServerChildren : FNode K) : FNode K :=
  writes.writeTree.calculateCompleteEventChildrenAtPath writes.path completeServerChildren

def calculateEventCacheAfterServerOverwriteWithChildPath (writes : FWriteTreeRef K)
    (childPath : FPath K) (existingServerSnap : FNode K) : Option (FNode K) :=
  writes.writeTree.calculateEventCacheAfterServerOverwriteAtPath writes.path childPath
    existingServerSnap

def shadowingWriteAtPath (writes : FWriteTreeRef K) (path : FPath K) : Option (FNode K) :=
  writes.writeTree.shadowingWriteAtPath (writes.path ++ path)

def calculateCompleteChild (writes : FWriteTreeRef K) (childKey : K)
    (existingServerCache : FCacheNode K) : Option (FNode K) :=
  writes.writeTree.calculateCompleteChildAtPath writes.path childKey existingServerCache

def childWriteTreeRef (writes : FWriteTreeRef K) (childKey : K) : FWriteTreeRef K :=
  { writes with path := writes.path ++ [childKey] }

end FWriteTreeRef

/-! ## Changes -/

/-- What happened to one child. -/
inductive FChange (K : Type) where
  | childRemoved (node : FNode K)
  | childAdded (node : FNode K)
  | childChanged (node oldNode : FNode K)

abbrev ChangeMap (K : Type) := List (K × FChange K)

/-- `none` is the exception of a combination that makes no sense. -/
def trackChildChange (changeMap : ChangeMap K) (childKey : K) (change : FChange K) :
    Option (ChangeMap K) :=
  match get? childKey changeMap with
  | none => some (put childKey change changeMap)
  | some oldChange =>
      match change, oldChange with
      | .childAdded node, .childRemoved oldNode =>
          some (put childKey (.childChanged node oldNode) changeMap)
      | .childRemoved _, .childAdded _ => some (remove childKey changeMap)
      | .childRemoved _, .childChanged _ oldNode =>
          some (put childKey (.childRemoved oldNode) changeMap)
      | .childChanged node _, .childAdded _ =>
          some (put childKey (.childAdded node) changeMap)
      | .childChanged node _, .childChanged _ oldNode =>
          some (put childKey (.childChanged node oldNode) changeMap)
      | _, _ => none

def trackAll (changeMap : ChangeMap K) (changes : List (K × FChange K)) : Option (ChangeMap K) :=
  changes.foldlM (fun changeMap change => trackChildChange changeMap change.1 change.2) changeMap

namespace FIndexedFilter

def updateChildIn (numbers : NumberEquality) (node : FNode K) (childKey : K)
    (newChildSnap : FNode K) (affectedPath : FPath K) : FNode K × List (K × FChange K) :=
  let oldChildSnap := node.getImmediateChild childKey
  if (oldChildSnap.getChild affectedPath).isEqual numbers (newChildSnap.getChild affectedPath) &&
      oldChildSnap.isEmpty == newChildSnap.isEmpty then (node, [])
  else
    let changes :=
      if newChildSnap.isEmpty then
        if node.hasChild childKey then [(childKey, FChange.childRemoved oldChildSnap)] else []
      else if oldChildSnap.isEmpty then [(childKey, .childAdded newChildSnap)]
      else [(childKey, .childChanged newChildSnap oldChildSnap)]
    if node.isLeafNode && newChildSnap.isEmpty then (node, changes)
    else (node.updateImmediateChild childKey newChildSnap, changes)

def updateFullNode (numbers : NumberEquality) (oldSnap newSnap : FNode K) :
    FNode K × List (K × FChange K) :=
  let removed := oldSnap.enumerated.filterMap fun child =>
    if newSnap.hasChild child.1 then none else some (child.1, FChange.childRemoved child.2)
  let arrived := newSnap.enumerated.filterMap fun child =>
    if oldSnap.hasChild child.1 then
      let oldChildSnap := oldSnap.getImmediateChild child.1
      if oldChildSnap.isEqual numbers child.2 then none
      else some (child.1, FChange.childChanged child.2 oldChildSnap)
    else some (child.1, .childAdded child.2)
  (newSnap, removed ++ arrived)

end FIndexedFilter

/-! ## The two caches of a view -/

structure FViewCache (K : Type) where
  cachedEventSnap : FCacheNode K
  cachedServerSnap : FCacheNode K

namespace FViewCache

def updateEventSnap (viewCache : FViewCache K) (eventSnap : FNode K)
    (complete : Bool) : FViewCache K :=
  { viewCache with cachedEventSnap := ⟨eventSnap, complete, false⟩ }

def updateServerSnap (viewCache : FViewCache K) (serverSnap : FNode K) (complete filtered : Bool) :
    FViewCache K :=
  { viewCache with cachedServerSnap := ⟨serverSnap, complete, filtered⟩ }

def completeEventSnap (viewCache : FViewCache K) : Option (FNode K) :=
  if viewCache.cachedEventSnap.isFullyInitialized then some viewCache.cachedEventSnap.node
  else none

def completeServerSnap (viewCache : FViewCache K) : Option (FNode K) :=
  if viewCache.cachedServerSnap.isFullyInitialized then some viewCache.cachedServerSnap.node
  else none

end FViewCache

/-! ## Operations -/

inductive FOperationSource where
  | user
  | server
  deriving DecidableEq

inductive FOperation (K : Type) where
  | overwrite (source : FOperationSource) (path : FPath K) (snap : FNode K)
  | merge (path : FPath K) (children : FCompoundWrite K)
  | ackUserWrite (path : FPath K) (revert : Bool)
  | listenComplete (path : FPath K)

namespace FOperation

def path : FOperation K → FPath K
  | .overwrite _ path _ => path
  | .merge path _ => path
  | .ackUserWrite path _ => path
  | .listenComplete path => path

/-- The operation one level down. An acknowledged overwrite affects everything below it. -/
def operationForChild : FOperation K → K → Option (FOperation K)
  | .overwrite source [] snap, childKey =>
      some (.overwrite source [] (snap.getImmediateChild childKey))
  | .overwrite source (_ :: path) snap, _ => some (.overwrite source path snap)
  | .merge [] children, childKey =>
      let childTree := children.childCompoundWriteAtPath [childKey]
      if childTree.isEmpty then none
      else
        match childTree.rootWrite with
        | some snap => some (.overwrite .server [] snap)
        | none => some (.merge [] childTree)
  | .merge (_ :: path) children, _ => some (.merge path children)
  | .ackUserWrite path revert, _ => some (.ackUserWrite path.tail revert)
  | .listenComplete path, _ => some (.listenComplete path.tail)

end FOperation

namespace FViewProcessor

variable (numbers : NumberEquality)

/-- A complete child from the event cache, or else from the server data and the writes. -/
def completeChild (writes : FWriteTreeRef K) (viewCache : FViewCache K)
    (optCompleteServerCache : Option (FNode K)) (childKey : K) : Option (FNode K) :=
  let node := viewCache.cachedEventSnap
  if node.isCompleteForChild childKey then some (node.node.getImmediateChild childKey)
  else
    let serverNode :=
      match optCompleteServerCache with
      | some serverCache => ⟨serverCache, true, false⟩
      | none => viewCache.cachedServerSnap
    writes.calculateCompleteChild childKey serverNode

/-- The event node for new data of the whole server node. The server data is complete
here (the source asserts it), so the default of `getD` is not used. -/
def nodeWithLocalWrites (viewCache : FViewCache K) (writesCache : FWriteTreeRef K) : FNode K :=
  if viewCache.cachedServerSnap.isFiltered then
    writesCache.calculateCompleteEventChildrenWithCompleteServerChildren
      (viewCache.completeServerSnap.getD .emptyNode)
  else
    (writesCache.calculateCompleteEventCacheWithCompleteServerCache
      viewCache.completeServerSnap).getD .emptyNode

/-- The child of the event node for new server data at a path through it. -/
def newEventChild (viewCache : FViewCache K) (writesCache : FWriteTreeRef K) (childKey : K)
    (childChangePath : FPath K) : Option (FNode K) :=
  let oldEventSnap := viewCache.cachedEventSnap
  let serverNode := viewCache.cachedServerSnap.node
  if oldEventSnap.isCompleteForChild childKey then
    match writesCache.calculateEventCacheAfterServerOverwriteWithChildPath
      (childKey :: childChangePath) serverNode with
    | some eventChildUpdate =>
        some ((oldEventSnap.node.getImmediateChild childKey).updateChild childChangePath
          eventChildUpdate)
    | none => some (oldEventSnap.node.getImmediateChild childKey)
  else writesCache.calculateCompleteChild childKey viewCache.cachedServerSnap

def generateEventCacheAfterServerEvent (viewCache : FViewCache K) (changePath : FPath K)
    (writesCache : FWriteTreeRef K) : FViewCache K × List (K × FChange K) :=
  let oldEventSnap := viewCache.cachedEventSnap
  if (writesCache.shadowingWriteAtPath changePath).isSome then (viewCache, [])
  else
    let newEventCache :=
      match changePath with
      | [] =>
          FIndexedFilter.updateFullNode numbers oldEventSnap.node
            (nodeWithLocalWrites viewCache writesCache)
      | childKey :: childChangePath =>
          match newEventChild viewCache writesCache childKey childChangePath with
          | some newChild =>
              FIndexedFilter.updateChildIn numbers oldEventSnap.node childKey newChild
                childChangePath
          | none => (oldEventSnap.node, [])
    (viewCache.updateEventSnap newEventCache.1
      (oldEventSnap.isFullyInitialized || changePath.isEmpty), newEventCache.2)

/-- `none`: the update is meant for another listener and does not go into an incomplete
node. -/
def newServerNode (oldServerSnap : FCacheNode K) (changePath : FPath K) (changedSnap : FNode K) :
    Option (FNode K) :=
  match changePath with
  | [] => some changedSnap
  | childKey :: childChangePath =>
      if !oldServerSnap.isCompleteForPath changePath && decide (changePath.length > 1) then none
      else
        let childNode := oldServerSnap.node.getImmediateChild childKey
        let newChildNode := childNode.updateChild childChangePath changedSnap
        some (FIndexedFilter.updateChildIn numbers oldServerSnap.node childKey newChildNode
          childChangePath).1

def applyServerOverwriteTo (oldViewCache : FViewCache K) (changePath : FPath K)
    (changedSnap : FNode K)
    (writesCache : FWriteTreeRef K) : FViewCache K × List (K × FChange K) :=
  let oldServerSnap := oldViewCache.cachedServerSnap
  match newServerNode numbers oldServerSnap changePath changedSnap with
  | none => (oldViewCache, [])
  | some newServerCache =>
      generateEventCacheAfterServerEvent numbers
        (oldViewCache.updateServerSnap newServerCache
          (oldServerSnap.isFullyInitialized || changePath.isEmpty) false)
        changePath writesCache

def newUserChild (viewCache : FViewCache K) (writesCache : FWriteTreeRef K)
    (optCompleteCache : Option (FNode K)) (childKey : K) (childChangePath : FPath K)
    (changedSnap : FNode K) : FNode K :=
  if childChangePath.isEmpty then changedSnap
  else
    match completeChild writesCache viewCache optCompleteCache childKey with
    | some childNode => childNode.updateChild childChangePath changedSnap
    | none => .emptyNode

def applyUserOverwriteTo (oldViewCache : FViewCache K) (changePath : FPath K)
    (changedSnap : FNode K)
    (writesCache : FWriteTreeRef K) (optCompleteCache : Option (FNode K)) :
    FViewCache K × List (K × FChange K) :=
  let oldEventSnap := oldViewCache.cachedEventSnap
  match changePath with
  | [] =>
      let newEventCache := FIndexedFilter.updateFullNode numbers oldEventSnap.node changedSnap
      (oldViewCache.updateEventSnap newEventCache.1 true, newEventCache.2)
  | childKey :: childChangePath =>
      let oldChild := oldEventSnap.node.getImmediateChild childKey
      let newChild := newUserChild oldViewCache writesCache optCompleteCache childKey
        childChangePath changedSnap
      if oldChild.isEqual numbers newChild then (oldViewCache, [])
      else
        let newEventSnap := FIndexedFilter.updateChildIn numbers oldEventSnap.node childKey newChild
          childChangePath
        (oldViewCache.updateEventSnap newEventSnap.1 oldEventSnap.isFullyInitialized,
          newEventSnap.2)

/-- One child of a merge, laid over the server's child as it was before the merge. -/
def mergeChild (viewCache : FViewCache K) (writesCache : FWriteTreeRef K)
    (result : FViewCache K × List (K × FChange K)) (child : K × FCompoundWrite K) :
    FViewCache K × List (K × FChange K) :=
  let serverChild := viewCache.cachedServerSnap.node.getImmediateChild child.1
  let newChild := child.2.applyToNode serverChild
  let next := applyServerOverwriteTo numbers result.1 [child.1] newChild writesCache
  (next.1, result.2 ++ next.2)

/-- The children that the server node has come first. -/
def applyServerMergeTo (viewCache : FViewCache K) (path : FPath K)
    (changedChildren : FCompoundWrite K)
    (writesCache : FWriteTreeRef K) : FViewCache K × List (K × FChange K) :=
  let serverSnap := viewCache.cachedServerSnap
  if serverSnap.node.isEmpty && !serverSnap.isFullyInitialized then (viewCache, [])
  else
    let actualMerge :=
      if path.isEmpty then changedChildren
      else FCompoundWrite.emptyWrite.addCompoundWrite changedChildren path
    let childCompoundWrites := actualMerge.childCompoundWrites
    let held := childCompoundWrites.filter fun child => serverSnap.node.hasChild child.1
    let others := childCompoundWrites.filter fun child =>
      let isUnknownDeepMerge :=
        !serverSnap.isCompleteForChild child.1 && child.2.rootWrite.isNone
      !serverSnap.node.hasChild child.1 && !isUnknownDeepMerge
    (held ++ others).foldl (mergeChild numbers viewCache writesCache) (viewCache, [])

/-- The server's answer is its data for the path: the cached data is applied once more. -/
def ackUserWriteOn (viewCache : FViewCache K) (ackPath : FPath K) (writesCache : FWriteTreeRef K) :
    FViewCache K × List (K × FChange K) :=
  if (writesCache.shadowingWriteAtPath ackPath).isSome then (viewCache, [])
  else
    let serverCache := viewCache.cachedServerSnap
    if (ackPath.isEmpty && serverCache.isFullyInitialized) ||
        serverCache.isCompleteForPath ackPath then
      applyServerOverwriteTo numbers viewCache ackPath (serverCache.node.getChild ackPath)
        writesCache
    else if ackPath.isEmpty then
      let changedChildren := serverCache.node.enumerated.foldl
        (fun changedChildren child => changedChildren.addWrite child.2 [child.1])
        FCompoundWrite.emptyWrite
      applyServerMergeTo numbers viewCache ackPath changedChildren writesCache
    else (viewCache, [])

/-- The event node when everything at or above the view is reverted. -/
def revertedNode (viewCache : FViewCache K) (writesCache : FWriteTreeRef K) : FNode K :=
  if viewCache.cachedServerSnap.isFullyInitialized then
    (writesCache.calculateCompleteEventCacheWithCompleteServerCache
      viewCache.completeServerSnap).getD .emptyNode
  else
    writesCache.calculateCompleteEventChildrenWithCompleteServerChildren
      viewCache.cachedServerSnap.node

def revertedChild (viewCache : FViewCache K) (writesCache : FWriteTreeRef K) (childKey : K) :
    Option (FNode K) :=
  match writesCache.calculateCompleteChild childKey viewCache.cachedServerSnap with
  | some child => some child
  | none =>
      if viewCache.cachedServerSnap.isCompleteForChild childKey then
        some (viewCache.cachedEventSnap.node.getImmediateChild childKey)
      else none

/-- The event node with the child put back; a child that is not known any more goes. -/
def withRevertedChild (viewCache : FViewCache K) (writesCache : FWriteTreeRef K) (childKey : K)
    (affectedPath : FPath K) : FNode K × List (K × FChange K) :=
  let oldEventCache := viewCache.cachedEventSnap.node
  match revertedChild viewCache writesCache childKey with
  | some newChild =>
      FIndexedFilter.updateChildIn numbers oldEventCache childKey newChild affectedPath
  | none =>
      if oldEventCache.hasChild childKey then
        FIndexedFilter.updateChildIn numbers oldEventCache childKey .emptyNode affectedPath
      else (oldEventCache, [])

def revertUserWriteOn (viewCache : FViewCache K) (path : FPath K) (writesCache : FWriteTreeRef K) :
    FViewCache K × List (K × FChange K) :=
  if (writesCache.shadowingWriteAtPath path).isSome then (viewCache, [])
  else
    let serverSnap := viewCache.cachedServerSnap
    let newEventCache :=
      match path with
      | [] =>
          FIndexedFilter.updateFullNode numbers viewCache.cachedEventSnap.node
            (revertedNode viewCache writesCache)
      | childKey :: affectedPath =>
          let updated := withRevertedChild numbers viewCache writesCache childKey affectedPath
          if updated.1.isEmpty && serverSnap.isFullyInitialized then
            -- All child writes may have been reverted from a leaf.
            match writesCache.calculateCompleteEventCacheWithCompleteServerCache
              viewCache.completeServerSnap with
            | some (.leaf value) =>
                let restored := FIndexedFilter.updateFullNode numbers updated.1 (.leaf value)
                (restored.1, updated.2 ++ restored.2)
            | _ => updated
          else updated
    let complete := serverSnap.isFullyInitialized || (writesCache.shadowingWriteAtPath []).isSome
    (viewCache.updateEventSnap newEventCache.1 complete, newEventCache.2)

def listenCompleteOldCache (viewCache : FViewCache K) (path : FPath K)
    (writesCache : FWriteTreeRef K) :
    FViewCache K × List (K × FChange K) :=
  let oldServerNode := viewCache.cachedServerSnap
  generateEventCacheAfterServerEvent numbers
    (viewCache.updateServerSnap oldServerNode.node
      (oldServerNode.isFullyInitialized || path.isEmpty) oldServerNode.isFiltered)
    path writesCache

def updateCaches (oldViewCache : FViewCache K) (operation : FOperation K)
    (writesCache : FWriteTreeRef K) (optCompleteCache : Option (FNode K)) :
    FViewCache K × List (K × FChange K) :=
  match operation with
  | .overwrite .user path snap =>
      applyUserOverwriteTo numbers oldViewCache path snap writesCache optCompleteCache
  | .overwrite .server path snap =>
      applyServerOverwriteTo numbers oldViewCache path snap writesCache
  | .merge path children => applyServerMergeTo numbers oldViewCache path children writesCache
  | .ackUserWrite path revert =>
      if revert then revertUserWriteOn numbers oldViewCache path writesCache
      else ackUserWriteOn numbers oldViewCache path writesCache
  | .listenComplete path => listenCompleteOldCache numbers oldViewCache path writesCache

/-- The test of `maybeAddValueFromOldViewCache`. -/
def raisesValue (oldViewCache newViewCache : FViewCache K) (changes : ChangeMap K) : Bool :=
  let eventSnap := newViewCache.cachedEventSnap
  let isLeafOrEmpty := eventSnap.node.isLeafNode || eventSnap.node.isEmpty
  let isEqualToOld :=
    match oldViewCache.completeEventSnap with
    | some old => eventSnap.node.isEqual numbers old
    | none => false
  eventSnap.isFullyInitialized &&
    (!changes.isEmpty || !oldViewCache.cachedEventSnap.isFullyInitialized ||
      (isLeafOrEmpty && !isEqualToOld))

/-- The node of the value event, if there is one. -/
def maybeAddValue (oldViewCache newViewCache : FViewCache K) (changes : ChangeMap K) :
    Option (FNode K) :=
  if raisesValue numbers oldViewCache newViewCache changes then
    some newViewCache.cachedEventSnap.node
  else none

structure FViewProcessorResult (K : Type) where
  viewCache : FViewCache K
  changes : ChangeMap K
  value : Option (FNode K)

/-- `none` is the exception of the accumulator. -/
def applyOperationOn (oldViewCache : FViewCache K) (operation : FOperation K)
    (writesCache : FWriteTreeRef K) (optCompleteCache : Option (FNode K)) :
    Option (FViewProcessorResult K) :=
  let updated := updateCaches numbers oldViewCache operation writesCache optCompleteCache
  (trackAll [] updated.2).map fun changes =>
    ⟨updated.1, changes, maybeAddValue numbers oldViewCache updated.1 changes⟩

end FViewProcessor

end PicksOnMap.Source
