import PicksOnMap.Source.Account
import PicksOnMap.Source.ChildrenNode

/-!
# The account as the database stores it

Source pin: PicksPresenter.swift:16,22-32,35-47; Pods/FirebaseDatabase,
FChildrenNode.m:90-144. The calls and the lists of `Account` over nodes whose children
are found by `compareKey`. A snapshot reads the keys as they are stored. In a run whose
writes never go through a child stored under another spelling the tree is the one of
`Account` (`Run.toNode_reachable`).
-/
namespace PicksOnMap.Source

open Support Support.SortedEntries

namespace Stored

def accountTree (uid : Key) (root : FStoredNode) : FStoredNode :=
  root.getChild (accountReference (some uid)).path

def accountSnapshot (uid : Key) (root : FStoredNode) : DataSnapshot :=
  ⟨accountReference (some uid), (accountTree uid root).toNode id⟩

/-- The list a presenter of the account holds once the snapshot of `root` arrived. -/
def listedPicks (uid : Key) (root : FStoredNode) : List Pick :=
  decodedPicks (accountSnapshot uid root)

def presenterAt (uid : Key) (root : FStoredNode) : PicksPresenter :=
  (PicksPresenter.create (some uid)).handleSnapshot (accountSnapshot uid root)

def apply (write : DatabaseWrite) (root : FStoredNode) : FStoredNode :=
  root.updateChild write.path (FStoredNode.ofNode write.node)

/-- What a client that listed the tree `listed` can send. -/
inductive Issued (uid : Key) (listed : FStoredNode) : Call → DatabaseWrite → Prop
  | addNewPick {presenter : PicksPresenter} {name : String}
      {coordinate : CLLocationCoordinate2D} {write : DatabaseWrite}
      (client : presenter.ref = accountReference (some uid))
      (sent : presenter.addNewPick name coordinate = .ok write) :
      Issued uid listed (.addNewPick name coordinate) write
  | deletePick {index : Nat} {write : DatabaseWrite} {key : Key}
      (sent : (presenterAt uid listed).deletePick index = .ok (some write))
      (at_key : write.path = (accountReference (some uid)).path ++ [key]) :
      Issued uid listed (.deletePick key) write

/-- The trees of the runs whose steps all meet a condition on the tree before them, each
client acting on the list of some tree of such a run. -/
inductive Run (uid : Key) (Meets : FStoredNode → Call → Prop) : List Call → FStoredNode → Prop
  | empty : Run uid Meets [] FStoredNode.emptyNode
  | call {history pastHistory : List Call} {root past : FStoredNode} {call : Call}
      {write : DatabaseWrite} (before : Run uid Meets history root)
      (listed : Run uid Meets pastHistory past) (issued : Issued uid past call write)
      (meets : Meets root call) : Run uid Meets (history ++ [call]) (apply write root)

abbrev Reachable (uid : Key) : List Call → FStoredNode → Prop := Run uid fun _ _ => True

/-! ## The writes -/

theorem single_child (uid : Key) (node : FStoredNode) :
    accountTree uid node = node.getImmediateChild uid := by
  cases node with
  | leaf value => rfl
  | children representation entries =>
      unfold accountTree accountReference
      simp [FStoredNode.getChild]

theorem Issued.write_eq {uid : Key} {listed : FStoredNode} {call : Call} {write : DatabaseWrite}
    (issued : Issued uid listed call write) : write = call.write uid := by
  cases issued with
  | addNewPick client sent =>
      obtain ⟨_, rfl⟩ := (addNewPick_client_iff client).mp sent
      rfl
  | deletePick sent at_key =>
      obtain ⟨_, _, _, _, rfl⟩ := (PicksPresenter.deletePick_eq_ok_some_iff _ _ _).mp sent
      simp only [DatabaseReference.removeValue] at at_key ⊢
      rw [at_key]
      rfl

theorem pruned_ofNode (call : Call) :
    (FStoredNode.ofNode call.node).isEmpty = true →
      FStoredNode.ofNode call.node = FStoredNode.emptyNode := by
  intro empty
  cases call with
  | addNewPick name coordinate => cases empty
  | deletePick key => rfl

/-- A call acts on the account's tree as an update at its own path. -/
theorem accountTree_apply (uid : Key) (root : FStoredNode) (call : Call) :
    accountTree uid (apply (call.write uid) root) =
      (accountTree uid root).updateChild call.path (FStoredNode.ofNode call.node) := by
  rw [single_child, single_child]
  exact FStoredNode.getImmediateChild_updateChild_self uid call.path (pruned_ofNode call)

/-- Below its first key a call acts on one child of the account. -/
theorem accountTree_apply_cons (uid : Key) (root : FStoredNode) {call : Call} {front : Key}
    {rest : FPath Key} (path : call.path = front :: rest) :
    accountTree uid (apply (call.write uid) root) =
      (accountTree uid root).updateImmediateChild front
        (((accountTree uid root).getImmediateChild front).updateChild rest
          (FStoredNode.ofNode call.node)) := by
  rw [accountTree_apply, path, FStoredNode.updateChild_cons front rest (pruned_ofNode call)]

theorem accountTree_deletion (uid key : Key) (root : FStoredNode) :
    accountTree uid (apply ((Call.deletePick key).write uid) root) =
      (accountTree uid root).updateImmediateChild key FStoredNode.emptyNode := by
  have path : (Call.deletePick key).path = [key] := rfl
  rw [accountTree_apply_cons uid root path]
  cases (accountTree uid root).getImmediateChild key <;> rfl

theorem Run.addition {uid : Key} {Meets : FStoredNode → Call → Prop} {history : List Call}
    {root : FStoredNode} {name : String} {coordinate : CLLocationCoordinate2D}
    (before : Run uid Meets history root) (accepted : Accepted name coordinate)
    (meets : Meets root (.addNewPick name coordinate)) :
    Run uid Meets (history ++ [.addNewPick name coordinate])
      (apply ((Call.addNewPick name coordinate).write uid) root) := by
  have client : (PicksPresenter.create (some uid)).ref = accountReference (some uid) := rfl
  exact before.call before
    (.addNewPick client ((addNewPick_client_iff client).mpr ⟨accepted, rfl⟩)) meets

/-- The tree after these additions and nothing else. -/
def additionsTree (uid : Key) (additions : List (String × CLLocationCoordinate2D)) : FStoredNode :=
  additions.foldl (fun root addition =>
    apply ((Call.addNewPick addition.1 addition.2).write uid) root) FStoredNode.emptyNode

theorem Run.additions {uid : Key} {Meets : FStoredNode → Call → Prop}
    (additions : List (String × CLLocationCoordinate2D))
    (accepted : ∀ addition ∈ additions, Accepted addition.1 addition.2)
    (meets : ∀ addition ∈ additions, ∀ root, Meets root (.addNewPick addition.1 addition.2)) :
    Run uid Meets (additionCalls additions) (additionsTree uid additions) := by
  induction additions using List.reverseRecOn with
  | nil => exact .empty
  | append_singleton earlier last ih =>
      have before := ih (fun addition member => accepted addition (by simp [member]))
        (fun addition member => meets addition (by simp [member]))
      simpa [additionCalls, additionsTree] using
        before.addition (accepted last (by simp)) (meets last (by simp) _)

/-- Any pick of a client's list can be deleted by it. -/
theorem Issued.deletion {uid key : Key} {listed : FStoredNode} {pick : Pick}
    (member : pick ∈ decodedPicks (accountSnapshot uid listed))
    (at_key : pick.ref = some ((accountReference (some uid)).childKey key)) :
    Issued uid listed (.deletePick key) ((Call.deletePick key).write uid) := by
  obtain ⟨index, found⟩ := List.mem_iff_getElem?.mp member
  have sent : (presenterAt uid listed).deletePick index =
      .ok (some ((Call.deletePick key).write uid)) :=
    (PicksPresenter.deletePick_eq_ok_some_iff _ _ _).mpr ⟨pick, _, found, at_key, rfl⟩
  exact .deletePick sent rfl

/-! ## The list -/

/-- The leaves of the account, by slots. -/
def leaves (uid : Key) (root : FStoredNode) : LeafMap KeySlot FValue :=
  ((accountTree uid root).toNode Key.slot).leafAt

/-- A leaf one level down is the same however the keys are seen. -/
theorem leafAt_toNode_field {K : Type} [LinearOrder K] {seen : Key → K} {node : FStoredNode}
    {field : Key} (tells : FStoredNode.Tells seen field node.entries) (value : FValue) :
    (node.toNode seen).leafAt [seen field] = some value ↔
      node.getImmediateChild field = .leaf value := by
  rw [FNode.leafAt_cons, ← FStoredNode.toNode_getImmediateChild tells]
  cases node.getImmediateChild field <;>
    simp [FStoredNode.toNode, FNode.leafAt, FNode.getChild]

theorem leafAt_id_iff {node : FStoredNode} {field : Key} (member : field ∈ Pick.fields)
    (value : FValue) :
    (node.toNode id).leafAt [field] = some value ↔
      (node.toNode Key.slot).leafAt [field.slot] = some value := by
  have exact : FStoredNode.Tells id field node.entries :=
    FStoredNode.tells_id fun entry _ same => (separatesFields_slot field member _ same.symm).symm
  exact (leafAt_toNode_field exact value).trans
    (leafAt_toNode_field (FStoredNode.tells_slot field _) value).symm

/-- What a child of the account reads as, from the leaves by slots alone. -/
theorem init?_child_iff (uid key : Key) (node : FStoredNode) (pick : Pick) :
    Pick.init? ⟨(accountReference (some uid)).childKey key, node.toNode id⟩ = some pick ↔
      ∃ title coordinate,
        Shows Key.slot (fun path => (node.toNode Key.slot).leafAt path.tail) key.slot title
          coordinate ∧ pick = listedPick uid key title coordinate := by
  have title_mem : Pick.titleText ∈ Pick.fields := by simp [Pick.fields]
  have latitude_mem : Pick.latitudeText ∈ Pick.fields := by simp [Pick.fields]
  have longitude_mem : Pick.longitudeText ∈ Pick.fields := by simp [Pick.fields]
  rw [Pick.init?_eq_some_iff]
  simp only [leafAt_id_iff title_mem, leafAt_id_iff latitude_mem, leafAt_id_iff longitude_mem]
  constructor
  · intro fields
    obtain ⟨title, latitude, longitude, htitle, hlatitude, hlongitude, rfl⟩ := fields
    exact ⟨title, ⟨latitude, longitude⟩, ⟨htitle, hlatitude, hlongitude⟩, rfl⟩
  · intro shown
    obtain ⟨title, coordinate, shows, rfl⟩ := shown
    exact ⟨title, _, _, shows.title, shows.latitude, shows.longitude, rfl⟩

/-- The list of an account as a reading of its stored children. -/
theorem listedPicks_eq (uid : Key) (root : FStoredNode) :
    listedPicks uid root = (accountTree uid root).entries.filterMap fun entry =>
      Pick.init? ⟨(accountReference (some uid)).childKey entry.1, entry.2.toNode id⟩ := by
  unfold listedPicks accountSnapshot decodedPicks DataSnapshot.children
  cases accountTree uid root with
  | leaf value => rfl
  | children representation entries =>
      simp [FStoredNode.toNode, FStoredNode.toEntries_eq_map, FStoredNode.entries,
        List.filterMap_map, Function.comp_def]

/-- Below a stored key the leaves of the account are those of the child. -/
theorem leaves_child {uid : Key} {root : FStoredNode} (wf : (accountTree uid root).WellFormed)
    {key : Key} {node : FStoredNode} (member : (key, node) ∈ (accountTree uid root).entries)
    (path : List KeySlot) :
    leaves uid root (key.slot :: path) = (node.toNode Key.slot).leafAt path := by
  unfold leaves
  generalize accountTree uid root = account at wf member ⊢
  cases account with
  | leaf value => cases member
  | children representation entries =>
      obtain _ | ⟨sorted, _, _⟩ := wf
      have held : get? key.slot (FStoredNode.toEntries Key.slot entries) =
          some (node.toNode Key.slot) := by
        refine (mem_iff_get? sorted _ _).mp ?_
        rw [FStoredNode.toEntries_eq_map]
        exact List.mem_map.mpr ⟨_, member, rfl⟩
      rw [FNode.leafAt_cons, FStoredNode.toNode]
      simp only [FNode.getImmediateChild, held, Option.getD_some]

/-- The picks an account lists are those its leaves show, each under the key its slot is
stored under. -/
theorem mem_listedPicks {uid : Key} {root : FStoredNode} (wf : (accountTree uid root).WellFormed)
    (pick : Pick) :
    pick ∈ listedPicks uid root ↔
      ∃ key title coordinate, (accountTree uid root).keyIn key.slot = some key ∧
        Shows Key.slot (leaves uid root) key.slot title coordinate ∧
        pick = listedPick uid key title coordinate := by
  have child : ∀ entry ∈ (accountTree uid root).entries, ∀ title coordinate,
      Shows Key.slot (fun path => (entry.2.toNode Key.slot).leafAt path.tail) entry.1.slot title
          coordinate ↔
        Shows Key.slot (leaves uid root) entry.1.slot title coordinate := by
    intro entry member title coordinate
    have same : ∀ field, leaves uid root [entry.1.slot, field] =
        (entry.2.toNode Key.slot).leafAt [field] := fun field => leaves_child wf member [field]
    exact ⟨fun shows => shows.congr fun field _ => (same _).symm,
      fun shows => shows.congr fun field _ => same _⟩
  rw [listedPicks_eq, List.mem_filterMap]
  constructor
  · intro listed
    obtain ⟨entry, member, read⟩ := listed
    obtain ⟨title, coordinate, shows, rfl⟩ := (init?_child_iff uid _ _ pick).mp read
    exact ⟨_, title, coordinate, (wf.mem_keys_iff _).mp (List.mem_map_of_mem member),
      (child entry member title coordinate).mp shows, rfl⟩
  · intro shown
    obtain ⟨key, title, coordinate, stored, shows, rfl⟩ := shown
    obtain ⟨entry, member, rfl⟩ := List.mem_map.mp ((wf.mem_keys_iff key).mpr stored)
    exact ⟨entry, member, (init?_child_iff uid _ _ _).mpr
      ⟨title, coordinate, (child entry member title coordinate).mpr shows, rfl⟩⟩

/-- Listed picks come in the order of their slots, no two in one slot. -/
theorem listedPicks_sorted {uid : Key} {root : FStoredNode}
    (wf : (accountTree uid root).WellFormed) :
    (listedPicks uid root).Pairwise fun earlier later =>
      ∃ low high, earlier.key = some low ∧ later.key = some high ∧ low.slot < high.slot := by
  rw [listedPicks_eq]
  refine List.Pairwise.filterMap _ (fun left right less => ?_) (List.pairwise_map.mp wf.sorted)
  intro leftPick hleft rightPick hright
  exact ⟨_, _, key_of_init? hleft, key_of_init? hright, less⟩

/-- A list is known from the picks it holds. -/
theorem listedPicks_ext {uid : Key} {left right : FStoredNode}
    (leftWf : (accountTree uid left).WellFormed) (rightWf : (accountTree uid right).WellFormed)
    (same : ∀ pick, pick ∈ listedPicks uid left ↔ pick ∈ listedPicks uid right) :
    listedPicks uid left = listedPicks uid right := by
  have apart : ∀ {one other : Pick}, (∃ low high, one.key = some low ∧ other.key = some high ∧
      low.slot < high.slot) → one ≠ other := by
    intro one other ordered same
    obtain ⟨low, high, hlow, hhigh, less⟩ := ordered
    subst same
    cases hlow.symm.trans hhigh
    exact lt_irrefl _ less
  have perm := (List.perm_ext_iff_of_nodup ((listedPicks_sorted leftWf).imp apart)
    ((listedPicks_sorted rightWf).imp apart)).mpr same
  refine perm.eq_of_pairwise (fun one other _ _ less greater => ?_) (listedPicks_sorted leftWf)
    (listedPicks_sorted rightWf)
  obtain ⟨low, high, hlow, hhigh, below⟩ := less
  obtain ⟨low', high', hlow', hhigh', above⟩ := greater
  cases hlow.symm.trans hhigh'
  cases hhigh.symm.trans hlow'
  exact absurd below (lt_asymm above)

end Stored

end PicksOnMap.Source
