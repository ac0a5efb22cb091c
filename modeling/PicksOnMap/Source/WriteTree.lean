import PicksOnMap.Source.CompoundWrite

/-!
# Pending writes

Source pin: Pods/FirebaseDatabase, FWriteRecord.m:32-59; FWriteTree.m:57-331,
370-457; FCacheNode.m:30-58; FChildrenNode.m:108-110.

The writes of the client that the server has not answered yet. `visibleWrites` is
kept up to date next to the list of all of them: a write that goes away is cut out of
it where that is enough, and the tree is built again from the list where it is not.
The assertions on the order of the identifiers, the children after a given one in a
limited query and the exceptions of nil arguments are left out.
-/
namespace PicksOnMap.Source

variable {K : Type} [LinearOrder K] [StringComparator K]

/-- A record holds an overwrite or a merge, never both. -/
inductive FWriteData (K : Type) where
  | overwrite (node : FNode K)
  | merge (changedChildren : FCompoundWrite K)

/-- A merge is always visible; the initialisers below are the only way to a record. -/
structure FWriteRecord (K : Type) where
  writeId : Int
  path : FPath K
  data : FWriteData K
  visible : Bool

namespace FWriteRecord

def initWithOverwrite (path : FPath K) (overwrite : FNode K) (writeId : Int) (visible : Bool) :
    FWriteRecord K := ⟨writeId, path, .overwrite overwrite, visible⟩

def initWithMerge (path : FPath K) (merge : FCompoundWrite K) (writeId : Int) : FWriteRecord K :=
  ⟨writeId, path, .merge merge, true⟩

end FWriteRecord

def FNode.hasChild (node : FNode K) (childName : K) : Bool :=
  !(node.getImmediateChild childName).isEmpty

structure FCacheNode (K : Type) where
  node : FNode K
  isFullyInitialized : Bool
  isFiltered : Bool

namespace FCacheNode

def isCompleteForChild (cache : FCacheNode K) (childKey : K) : Bool :=
  (cache.isFullyInitialized && !cache.isFiltered) || cache.node.hasChild childKey

def isCompleteForPath (cache : FCacheNode K) : FPath K → Bool
  | [] => cache.isFullyInitialized && !cache.isFiltered
  | childKey :: _ => cache.isCompleteForChild childKey

end FCacheNode

structure FWriteTree (K : Type) where
  visibleWrites : FCompoundWrite K
  allWrites : List (FWriteRecord K)
  lastWriteId : Int

namespace FWriteTree

def init : FWriteTree K := ⟨.emptyWrite, [], -1⟩

def addOverwriteAtPath (tree : FWriteTree K) (path : FPath K) (newData : FNode K) (writeId : Int)
    (visible : Bool) : FWriteTree K where
  allWrites := tree.allWrites ++ [.initWithOverwrite path newData writeId visible]
  visibleWrites := if visible then tree.visibleWrites.addWrite newData path else tree.visibleWrites
  lastWriteId := writeId

def addMergeAtPath (tree : FWriteTree K) (path : FPath K) (changedChildren : FCompoundWrite K)
    (writeId : Int) : FWriteTree K where
  allWrites := tree.allWrites ++ [.initWithMerge path changedChildren writeId]
  visibleWrites := tree.visibleWrites.addCompoundWrite changedChildren path
  lastWriteId := writeId

def writeForId (tree : FWriteTree K) (writeId : Int) : Option (FWriteRecord K) :=
  tree.allWrites.find? fun write => write.writeId = writeId

def recordContainsPath (record : FWriteRecord K) (path : FPath K) : Bool :=
  match record.data with
  | .overwrite _ => record.path <+: path
  | .merge changedChildren =>
      changedChildren.enumerateWrites
        (fun childPath _ _ =>
          let contains : Bool := record.path ++ childPath <+: path
          (contains, contains))
        false

/-- One record of `layerTreeFromWrites`, as far as it concerns `treeRoot`. A merge
above it is read at the rest of the path, and what is found there is then read at the
rest of the path after its first key. -/
def layerRecord (treeRoot : FPath K) (compoundWrite : FCompoundWrite K) (record : FWriteRecord K) :
    FCompoundWrite K :=
  match record.data with
  | .overwrite overwrite =>
      if treeRoot <+: record.path then
        compoundWrite.addWrite overwrite (FPath.within treeRoot record.path)
      else if record.path <+: treeRoot then
        compoundWrite.addWrite (overwrite.getChild (FPath.within record.path treeRoot)) []
      else compoundWrite
  | .merge merge =>
      if treeRoot <+: record.path then
        compoundWrite.addCompoundWrite merge (FPath.within treeRoot record.path)
      else if record.path <+: treeRoot then
        let relativePath := FPath.within record.path treeRoot
        if relativePath.isEmpty then compoundWrite.addCompoundWrite merge []
        else
          match merge.completeNodeAtPath relativePath with
          | some child => compoundWrite.addWrite (child.getChild relativePath.tail) []
          | none => compoundWrite
      else compoundWrite

def layerTreeFromWrites (writes : List (FWriteRecord K)) (filter : FWriteRecord K → Bool)
    (treeRoot : FPath K) : FCompoundWrite K :=
  writes.foldl (fun compoundWrite record =>
    if filter record then layerRecord treeRoot compoundWrite record else compoundWrite) .emptyWrite

/-- Its comment asks for the visible records; it keeps every record. -/
def defaultFilter (_ : FWriteRecord K) : Bool := true

def resetTree (tree : FWriteTree K) : FWriteTree K where
  visibleWrites := layerTreeFromWrites tree.allWrites defaultFilter []
  allWrites := tree.allWrites
  lastWriteId := (tree.allWrites.getLast?.map FWriteRecord.writeId).getD (-1)

/-- The two flags of the scan over the other records, newest first. -/
structure RemovalScan where
  removedWriteWasVisible : Bool
  removedWriteOverlapsWithOtherWrites : Bool
  deriving DecidableEq

def scanStep (writeToRemove : FWriteRecord K) (index : Nat) (currentWrite : FWriteRecord K × Nat)
    (scan : RemovalScan) : RemovalScan :=
  if !scan.removedWriteWasVisible then scan
  else if currentWrite.1.visible then
    if index ≤ currentWrite.2 ∧ recordContainsPath currentWrite.1 writeToRemove.path then
      { scan with removedWriteWasVisible := false }
    else if writeToRemove.path <+: currentWrite.1.path then
      { scan with removedWriteOverlapsWithOtherWrites := true }
    else scan
  else scan

def removalScan (writeToRemove : FWriteRecord K) (index : Nat) (allWrites : List (FWriteRecord K)) :
    RemovalScan :=
  allWrites.zipIdx.foldr (scanStep writeToRemove index) ⟨writeToRemove.visible, false⟩

def cutOut (visibleWrites : FCompoundWrite K) (writeToRemove : FWriteRecord K) : FCompoundWrite K :=
  match writeToRemove.data with
  | .overwrite _ => visibleWrites.removeWriteAtPath writeToRemove.path
  | .merge merge =>
      merge.enumerateWrites
        (fun path _ visibleWrites =>
          (false, visibleWrites.removeWriteAtPath (writeToRemove.path ++ path)))
        visibleWrites

/-- Whether the write may have been visible, and the tree without it. `none` is the
exception of an identifier that no record has. -/
def removeWriteId (tree : FWriteTree K) (writeId : Int) : Option (Bool × FWriteTree K) :=
  match tree.allWrites.findIdx? (fun record => record.writeId = writeId) with
  | none => none
  | some index =>
      match tree.allWrites[index]? with
      | none => none
      | some writeToRemove =>
          let allWrites := tree.allWrites.eraseIdx index
          let tree := { tree with allWrites }
          let scan := removalScan writeToRemove index allWrites
          if !scan.removedWriteWasVisible then some (false, tree)
          else if scan.removedWriteOverlapsWithOtherWrites then some (true, tree.resetTree)
          else some (true, { tree with visibleWrites := cutOut tree.visibleWrites writeToRemove })

/-- The records that were dropped, and the tree without any. -/
def removeAllWrites (tree : FWriteTree K) : List (FWriteRecord K) × FWriteTree K :=
  (tree.allWrites, { tree with visibleWrites := .emptyWrite, allWrites := [] })

def shadowingWriteAtPath (tree : FWriteTree K) (path : FPath K) : Option (FNode K) :=
  tree.visibleWrites.completeNodeAtPath path

def calculateCompleteEventCacheAtPath (tree : FWriteTree K) (treePath : FPath K)
    (completeServerCache : Option (FNode K)) (writeIdsToExclude : Option (List Int))
    (includeHiddenWrites : Bool) : Option (FNode K) :=
  if writeIdsToExclude.isNone && !includeHiddenWrites then
    match tree.visibleWrites.completeNodeAtPath treePath with
    | some shadowingNode => some shadowingNode
    | none =>
        let subMerge := tree.visibleWrites.childCompoundWriteAtPath treePath
        if subMerge.isEmpty then completeServerCache
        else if completeServerCache.isNone && !subMerge.hasCompleteWriteAtPath [] then none
        else some (subMerge.applyToNode (completeServerCache.getD .emptyNode))
  else
    let merge := tree.visibleWrites.childCompoundWriteAtPath treePath
    if !includeHiddenWrites && merge.isEmpty then completeServerCache
    else if !includeHiddenWrites && completeServerCache.isNone &&
        !merge.hasCompleteWriteAtPath [] then none
    else
      let filter := fun record : FWriteRecord K =>
        (record.visible || includeHiddenWrites) &&
          (writeIdsToExclude.all fun excluded => !excluded.contains record.writeId) &&
            (decide (record.path <+: treePath) || decide (treePath <+: record.path))
      let mergeAtPath := layerTreeFromWrites tree.allWrites filter treePath
      some (mergeAtPath.applyToNode (completeServerCache.getD .emptyNode))

def calculateCompleteEventChildrenAtPath (tree : FWriteTree K) (treePath : FPath K)
    (completeServerChildren : FNode K) : FNode K :=
  match tree.visibleWrites.completeNodeAtPath treePath with
  | some (.leaf _) => .emptyNode
  | some (.children entries) =>
      entries.foldl (fun completeChildren child =>
        completeChildren.updateImmediateChild child.1 child.2) .emptyNode
  | none =>
      let merge := tree.visibleWrites.childCompoundWriteAtPath treePath
      let serverChildren :=
        match completeServerChildren with
        | .leaf _ => []
        | .children entries => entries
      let layered := serverChildren.foldl (fun completeChildren child =>
        let childMerge := merge.childCompoundWriteAtPath [child.1]
        completeChildren.updateImmediateChild child.1 (childMerge.applyToNode child.2)) .emptyNode
      merge.completeChildren.foldl (fun completeChildren child =>
        completeChildren.updateImmediateChild child.1 child.2) layered

/-- `none`: a write covers the path, nothing is to be raised. -/
def calculateEventCacheAfterServerOverwriteAtPath (tree : FWriteTree K)
    (treePath childPath : FPath K)
    (existingServerSnap : FNode K) : Option (FNode K) :=
  let path := treePath ++ childPath
  if tree.visibleWrites.hasCompleteWriteAtPath path then none
  else
    let childMerge := tree.visibleWrites.childCompoundWriteAtPath path
    if childMerge.isEmpty then some (existingServerSnap.getChild childPath)
    else some (childMerge.applyToNode (existingServerSnap.getChild childPath))

def calculateCompleteChildAtPath (tree : FWriteTree K) (treePath : FPath K) (childKey : K)
    (existingServerCache : FCacheNode K) : Option (FNode K) :=
  let path := treePath ++ [childKey]
  match tree.visibleWrites.completeNodeAtPath path with
  | some shadowingNode => some shadowingNode
  | none =>
      if existingServerCache.isCompleteForChild childKey then
        let childMerge := tree.visibleWrites.childCompoundWriteAtPath path
        some (childMerge.applyToNode (existingServerCache.node.getImmediateChild childKey))
      else none

end FWriteTree

end PicksOnMap.Source
