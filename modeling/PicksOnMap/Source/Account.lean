import PicksOnMap.Source.PicksPresenter

/-!
# The account in the database

Source pin: PicksPresenter.swift:16,22-32,35-47. All clients of an account hold
the same reference, the account's uid below the root. `Reachable` collects the
trees that any number of them can produce, each acting on a list that was decoded
from some reachable tree, the current one or not. Children are kept apart here by their
exact keys; `StoredAccount` finds them as the database does.
-/
namespace PicksOnMap.Source

open Support Support.SortedEntries

def accountTree (uid : Key) (root : FNode Key) : FNode Key :=
  root.getChild (accountReference (some uid)).path

def accountSnapshot (uid : Key) (root : FNode Key) : DataSnapshot :=
  ⟨accountReference (some uid), accountTree uid root⟩

/-- The list a presenter of the account holds once the snapshot of `root` arrived. -/
def listedPicks (uid : Key) (root : FNode Key) : List Pick :=
  decodedPicks (accountSnapshot uid root)

/-- A presenter of the account that has just been given the snapshot of `root`. -/
def presenterAt (uid : Key) (root : FNode Key) : PicksPresenter :=
  (PicksPresenter.create (some uid)).handleSnapshot (accountSnapshot uid root)

/-- A call that reached the database, with the key of the pick it deleted. -/
inductive Call where
  | addNewPick (name : String) (coordinate : CLLocationCoordinate2D)
  | deletePick (key : Key)
  deriving DecidableEq

/-- Where below the account a call writes. -/
def Call.path : Call → FPath Key
  | .addNewPick name _ => pathPieces name
  | .deletePick key => [key]

def Call.node : Call → FNode Key
  | .addNewPick name coordinate => pickNode name coordinate
  | .deletePick _ => FNode.emptyNode

/-- What a call sends. -/
def Call.write (uid : Key) (call : Call) : DatabaseWrite :=
  ⟨(accountReference (some uid)).path ++ call.path, call.node⟩

/-- What a client that listed the tree `listed` can send. Its list only matters for
a deletion, which goes to the reference of one of its picks. -/
inductive Issued (uid : Key) (listed : FNode Key) : Call → DatabaseWrite → Prop
  | addNewPick {presenter : PicksPresenter} {name : String}
      {coordinate : CLLocationCoordinate2D} {write : DatabaseWrite}
      (client : presenter.ref = accountReference (some uid))
      (sent : presenter.addNewPick name coordinate = .ok write) :
      Issued uid listed (.addNewPick name coordinate) write
  | deletePick {index : Nat} {write : DatabaseWrite} {key : Key}
      (sent : (presenterAt uid listed).deletePick index = .ok (some write))
      (at_key : write.path = (accountReference (some uid)).path ++ [key]) :
      Issued uid listed (.deletePick key) write

inductive Reachable (uid : Key) : List Call → FNode Key → Prop
  | empty : Reachable uid [] FNode.emptyNode
  | call {history pastHistory : List Call} {root past : FNode Key} {call : Call}
      {write : DatabaseWrite} (before : Reachable uid history root)
      (listed : Reachable uid pastHistory past) (issued : Issued uid past call write) :
      Reachable uid (history ++ [call]) (write.apply root)

/-- The write that an accepted addition sends. -/
def additionWrite (uid : Key) (name : String) (coordinate : CLLocationCoordinate2D) :
    DatabaseWrite :=
  ⟨(accountReference (some uid)).path ++ pathPieces name, pickNode name coordinate⟩

/-- Every client of the account sends the same write for the same arguments. -/
theorem addNewPick_client_iff {uid : Key} {presenter : PicksPresenter} {name : String}
    {coordinate : CLLocationCoordinate2D} {write : DatabaseWrite}
    (client : presenter.ref = accountReference (some uid)) :
    presenter.addNewPick name coordinate = .ok write ↔
      Accepted name coordinate ∧ write = additionWrite uid name coordinate := by
  rw [presenter.addNewPick_eq_ok_iff, client]
  rfl

theorem Reachable.addNewPick {uid : Key} {history : List Call} {root : FNode Key}
    {presenter : PicksPresenter} {name : String} {coordinate : CLLocationCoordinate2D}
    {write : DatabaseWrite} (before : Reachable uid history root)
    (client : presenter.ref = accountReference (some uid))
    (sent : presenter.addNewPick name coordinate = .ok write) :
    Reachable uid (history ++ [.addNewPick name coordinate]) (write.apply root) :=
  before.call before (.addNewPick client sent)

theorem Reachable.addition {uid : Key} {history : List Call} {root : FNode Key} {name : String}
    {coordinate : CLLocationCoordinate2D} (before : Reachable uid history root)
    (accepted : Accepted name coordinate) :
    Reachable uid (history ++ [.addNewPick name coordinate])
      ((additionWrite uid name coordinate).apply root) := by
  have client : (PicksPresenter.create (some uid)).ref = accountReference (some uid) := rfl
  exact before.addNewPick client ((addNewPick_client_iff client).mpr ⟨accepted, rfl⟩)

def additionCalls (additions : List (String × CLLocationCoordinate2D)) : List Call :=
  additions.map fun addition => .addNewPick addition.1 addition.2

/-- The tree after these additions and nothing else. -/
def additionsTree (uid : Key) (additions : List (String × CLLocationCoordinate2D)) : FNode Key :=
  additions.foldl (fun root addition => (additionWrite uid addition.1 addition.2).apply root)
    FNode.emptyNode

theorem Reachable.additions (uid : Key) (additions : List (String × CLLocationCoordinate2D))
    (accepted : ∀ addition ∈ additions, Accepted addition.1 addition.2) :
    Reachable uid (additionCalls additions) (additionsTree uid additions) := by
  induction additions using List.reverseRecOn with
  | nil => exact .empty
  | append_singleton earlier last ih =>
      have before := ih fun addition member => accepted addition (by simp [member])
      simpa [additionCalls, additionsTree] using
        before.addition (accepted last (by simp))

/-- A pick as the account lists it. -/
def listedPick (uid key : Key) (title : String) (coordinate : CLLocationCoordinate2D) : Pick :=
  ⟨some ((accountReference (some uid)).childKey key), some title, coordinate⟩

@[simp] theorem key_listedPick (uid key : Key) (title : String)
    (coordinate : CLLocationCoordinate2D) :
    (listedPick uid key title coordinate).key = some key := by
  simp [listedPick, Pick.key]

section Shows

variable {K : Type} (seen : Key → K)

/-- The three fields below `key` are leaves of the right type, with these values. -/
structure Shows (leaves : LeafMap K FValue) (key : K) (title : String)
    (coordinate : CLLocationCoordinate2D) : Prop where
  title : leaves [key, seen Pick.titleText] = some (.string title)
  latitude : leaves [key, seen Pick.latitudeText] = some (.number coordinate.latitude)
  longitude : leaves [key, seen Pick.longitudeText] = some (.number coordinate.longitude)

variable {seen}

theorem Shows.congr {left right : LeafMap K FValue} {key : K} {title : String}
    {coordinate : CLLocationCoordinate2D} (shows : Shows seen left key title coordinate)
    (same : ∀ field ∈ Pick.fields, left [key, seen field] = right [key, seen field]) :
    Shows seen right key title coordinate where
  title := (same _ (by simp [Pick.fields])).symm.trans shows.title
  latitude := (same _ (by simp [Pick.fields])).symm.trans shows.latitude
  longitude := (same _ (by simp [Pick.fields])).symm.trans shows.longitude

/-- No other key looks like a field of a pick. -/
def SeparatesFields (seen : Key → K) : Prop :=
  ∀ field ∈ Pick.fields, ∀ key, seen key = seen field → key = field

theorem separatesFields_id : SeparatesFields (id : Key → Key) := fun _ _ _ same => same

theorem separatesFields_slot : SeparatesFields Key.slot := by
  intro field member key same
  refine Key.eq_of_slot_eq ?_ same
  simp only [Pick.fields, List.mem_cons, List.not_mem_nil, or_false] at member
  rcases member with rfl | rfl | rfl <;> decide

theorem SeparatesFields.apart (separates : SeparatesFields seen) :
    seen Pick.latitudeText ≠ seen Pick.titleText ∧
      seen Pick.longitudeText ≠ seen Pick.titleText ∧
      seen Pick.longitudeText ≠ seen Pick.latitudeText := by
  refine ⟨fun same => ?_, fun same => ?_, fun same => ?_⟩ <;>
    exact absurd (separates _ (by simp [Pick.fields]) _ same) (by decide)

variable [DecidableEq K]

/-- The leaves of a pick's node. -/
def pickLeaves (seen : Key → K) (name : String) (coordinate : CLLocationCoordinate2D) :
    LeafMap K FValue := fun path =>
  if path = [seen Pick.titleText] then some (.string name)
  else if path = [seen Pick.latitudeText] then some (.number coordinate.latitude)
  else if path = [seen Pick.longitudeText] then some (.number coordinate.longitude)
  else none

theorem pickLeaves_title (name : String) (coordinate : CLLocationCoordinate2D) :
    pickLeaves seen name coordinate [seen Pick.titleText] = some (.string name) := by
  simp [pickLeaves]

theorem SeparatesFields.pickLeaves_latitude (separates : SeparatesFields seen) (name : String)
    (coordinate : CLLocationCoordinate2D) :
    pickLeaves seen name coordinate [seen Pick.latitudeText] =
      some (.number coordinate.latitude) := by
  simp [pickLeaves, separates.apart]

theorem SeparatesFields.pickLeaves_longitude (separates : SeparatesFields seen) (name : String)
    (coordinate : CLLocationCoordinate2D) :
    pickLeaves seen name coordinate [seen Pick.longitudeText] =
      some (.number coordinate.longitude) := by
  simp [pickLeaves, separates.apart]

/-- A leaf of a pick's node lies one level down. -/
theorem pickLeaves_single {name : String} {coordinate : CLLocationCoordinate2D} {path : List K}
    {value : FValue} (held : pickLeaves seen name coordinate path = some value) :
    ∃ field, path = [field] := by
  unfold pickLeaves at held
  split at held
  · next title => exact ⟨_, title⟩
  · split at held
    · next latitude => exact ⟨_, latitude⟩
    · split at held
      · next longitude => exact ⟨_, longitude⟩
      · cases held

end Shows

/-- What a child of the account reads as, from the leaves alone. -/
theorem init?_child_iff (uid key : Key) (tree : FNode Key) (pick : Pick) :
    Pick.init? ⟨(accountReference (some uid)).childKey key, tree.getImmediateChild key⟩ = some pick ↔
      ∃ title coordinate, Shows id tree.leafAt key title coordinate ∧
        pick = listedPick uid key title coordinate := by
  rw [Pick.init?_eq_some_iff]
  simp only [← FNode.leafAt_cons]
  constructor
  · intro fields
    obtain ⟨title, latitude, longitude, htitle, hlatitude, hlongitude, rfl⟩ := fields
    exact ⟨title, ⟨latitude, longitude⟩, ⟨htitle, hlatitude, hlongitude⟩, rfl⟩
  · intro shown
    obtain ⟨title, coordinate, shows, rfl⟩ := shown
    exact ⟨title, _, _, shows.title, shows.latitude, shows.longitude, rfl⟩

/-- The list of an account as a reading of its sorted children. -/
theorem listedPicks_eq (uid : Key) (root : FNode Key) :
    listedPicks uid root =
      match accountTree uid root with
      | .leaf _ => []
      | .children entries => entries.filterMap fun entry =>
          Pick.init? ⟨(accountReference (some uid)).childKey entry.1, entry.2⟩ := by
  unfold listedPicks decodedPicks accountSnapshot DataSnapshot.children
  cases accountTree uid root with
  | leaf value => rfl
  | children entries => simp [List.filterMap_map]

/-- The picks an account lists are those its leaves show, one for each such key. -/
theorem mem_listedPicks {uid : Key} {root : FNode Key} (wf : (accountTree uid root).WellFormed)
    (pick : Pick) :
    pick ∈ listedPicks uid root ↔
      ∃ key title coordinate, Shows id (accountTree uid root).leafAt key title coordinate ∧
        pick = listedPick uid key title coordinate := by
  rw [listedPicks_eq]
  cases htree : accountTree uid root with
  | leaf value =>
      simp only [List.not_mem_nil, false_iff, not_exists, not_and]
      intro key title coordinate shows
      have := shows.title
      simp [FNode.leafAt_leaf] at this
  | children entries =>
      rw [htree] at wf
      obtain _ | ⟨sorted, _, _⟩ := wf
      simp only [List.mem_filterMap, ← init?_child_iff]
      constructor
      · intro listed
        obtain ⟨⟨key, node⟩, member, hread⟩ := listed
        have held := (mem_iff_get? sorted key node).mp member
        refine ⟨key, ?_⟩
        simpa [FNode.getImmediateChild, held] using hread
      · intro listed
        obtain ⟨key, hread⟩ := listed
        cases held : get? key entries with
        | none =>
            simp only [FNode.getImmediateChild, held, Option.getD_none] at hread
            obtain ⟨_, _, _, htitle, _⟩ := (Pick.init?_eq_some_iff _ _).mp hread
            simp [FNode.leafAt_emptyNode] at htitle
        | some node =>
            refine ⟨(key, node), mem_of_get? held, ?_⟩
            simpa [FNode.getImmediateChild, held] using hread

/-- The children of a well-formed account tree as sorted entries, also where the
tree is a leaf and has none. -/
theorem exists_entries {uid : Key} {root : FNode Key} (wf : (accountTree uid root).WellFormed) :
    ∃ entries : List (Key × FNode Key), Sorted entries ∧
      listedPicks uid root = entries.filterMap fun entry =>
        Pick.init? ⟨(accountReference (some uid)).childKey entry.1, entry.2⟩ := by
  rw [listedPicks_eq]
  cases htree : accountTree uid root with
  | leaf value => exact ⟨[], List.Pairwise.nil, rfl⟩
  | children entries =>
      rw [htree] at wf
      obtain _ | ⟨sorted, _, _⟩ := wf
      exact ⟨entries, sorted, rfl⟩

/-- A pick that is read from a child has the child's key. -/
theorem key_of_init? {ref : DatabaseReference} {key : Key} {node : FNode Key} {pick : Pick}
    (read : Pick.init? ⟨ref.childKey key, node⟩ = some pick) : pick.key = some key := by
  obtain ⟨_, _, _, _, _, _, rfl⟩ := (Pick.init?_eq_some_iff _ _).mp read
  simp [Pick.key]

/-- Listed picks come in the order of their keys, no two under one key. -/
theorem listedPicks_sorted {uid : Key} {root : FNode Key}
    (wf : (accountTree uid root).WellFormed) :
    (listedPicks uid root).Pairwise fun earlier later =>
      ∃ low high, earlier.key = some low ∧ later.key = some high ∧ low < high := by
  obtain ⟨entries, sorted, listed⟩ := exists_entries wf
  rw [listed]
  refine List.Pairwise.filterMap _ (fun left right less => ?_) sorted
  intro leftPick hleft rightPick hright
  exact ⟨_, _, key_of_init? hleft, key_of_init? hright, less⟩

/-! An account and a place to evaluate the results at. -/

def sampleUid : Key := ⟨"uid", by decide⟩

def sampleCoordinate : CLLocationCoordinate2D := ⟨⟨0x4048CCCCCCCCCCCD⟩, ⟨0x402E000000000000⟩⟩

end PicksOnMap.Source
