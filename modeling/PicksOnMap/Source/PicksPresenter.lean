import PicksOnMap.Source.Pick

/-!
# The presenter

Source pin: PicksPresenter.swift:14-47. The account reference is fixed when the
presenter is built; a snapshot replaces its list of picks. `addNewPick` and
`deletePick` leave the list alone: they only hand a write to the database.
`updateData`, which `addNewPick` ends with, belongs to the viewer.
-/
namespace PicksOnMap.Source

open Support Support.SortedEntries

/-- A Swift run-time failure: the process ends. -/
inductive Trap where
  | indexOutOfRange
  deriving DecidableEq, Repr

structure PicksPresenter where
  picks : List Pick
  ref : DatabaseReference

def zeroText : Key := ⟨"0", by decide⟩

/-- `reference(withPath: Auth.auth().currentUser?.uid ?? String.zeroText)` -/
def accountReference (currentUser : Option Key) : DatabaseReference :=
  ⟨[currentUser.getD zeroText], by simp⟩

/-- The loop of the snapshot handler. -/
def decodedPicks (snapshot : DataSnapshot) : List Pick :=
  snapshot.children.filterMap Pick.init?

/-- A decoded pick refers to the child it was decoded from. -/
theorem decodedPicks_ref {snapshot : DataSnapshot} {pick : Pick}
    (listed : pick ∈ decodedPicks snapshot) :
    ∃ key child, child ∈ snapshot.children ∧ Pick.init? child = some pick ∧
      child.ref = snapshot.ref.childKey key ∧ pick.ref = some child.ref := by
  obtain ⟨child, inside, hread⟩ := List.mem_filterMap.mp listed
  have refers : pick.ref = some child.ref := by
    obtain ⟨_, _, _, _, _, _, rfl⟩ := (Pick.init?_eq_some_iff child pick).mp hread
    rfl
  have below : ∃ key, child.ref = snapshot.ref.childKey key := by
    unfold DataSnapshot.children at inside
    cases hnode : snapshot.node with
    | leaf value => simp [hnode] at inside
    | children entries =>
        simp only [hnode, List.mem_map] at inside
        obtain ⟨entry, _, rfl⟩ := inside
        exact ⟨entry.1, rfl⟩
  obtain ⟨key, at_key⟩ := below
  exact ⟨key, child, inside, hread, at_key, refers⟩

namespace PicksPresenter

/-- `init(viewer:)`, before the first snapshot. -/
def create (currentUser : Option Key) : PicksPresenter := ⟨[], accountReference currentUser⟩

def handleSnapshot (presenter : PicksPresenter) (snapshot : DataSnapshot) : PicksPresenter :=
  { presenter with picks := decodedPicks snapshot }

def addNewPick (presenter : PicksPresenter) (name : String)
    (coordinate : CLLocationCoordinate2D) : Except NSException DatabaseWrite :=
  let pick := Pick.named name coordinate
  match presenter.ref.child name with
  | .error exception => .error exception
  | .ok pickRef => pickRef.setValue pick.toAnyObject

def deletePick (presenter : PicksPresenter) (index : Nat) :
    Except Trap (Option DatabaseWrite) :=
  match presenter.picks[index]? with
  | none => .error .indexOutOfRange
  | some pick => .ok (pick.ref.map DatabaseReference.removeValue)

theorem deletePick_eq_ok_some_iff (presenter : PicksPresenter) (index : Nat)
    (write : DatabaseWrite) :
    presenter.deletePick index = .ok (some write) ↔
      ∃ pick ref, presenter.picks[index]? = some pick ∧ pick.ref = some ref ∧
        write = ref.removeValue := by
  unfold deletePick
  cases presenter.picks[index]? with
  | none => simp
  | some pick => cases href : pick.ref <;> simp [href, eq_comm]

/-- Every pick refers to a child of the presenter's own reference. -/
def Bound (presenter : PicksPresenter) : Prop :=
  ∀ pick ∈ presenter.picks, ∃ key, pick.ref = some (presenter.ref.childKey key)

theorem create_bound (currentUser : Option Key) : (create currentUser).Bound := by
  intro pick member
  cases member

theorem handleSnapshot_bound (presenter : PicksPresenter) (node : FNode Key) :
    (presenter.handleSnapshot ⟨presenter.ref, node⟩).Bound := by
  intro pick member
  obtain ⟨key, child, _, _, at_key, refers⟩ := decodedPicks_ref member
  exact ⟨key, refers.trans (congrArg some at_key)⟩

end PicksPresenter

/-! ## What is written -/

/-- The node of a pick, its fields in key order. -/
def pickNode (name : String) (coordinate : CLLocationCoordinate2D) : FNode Key :=
  .children [(Pick.latitudeText, .leaf (.number coordinate.latitude)),
    (Pick.longitudeText, .leaf (.number coordinate.longitude)),
    (Pick.titleText, .leaf (.string name))]

/-- The names and coordinates that `addNewPick` accepts without raising. -/
structure Accepted (name : String) (coordinate : CLLocationCoordinate2D) : Prop where
  path : isValidPathString name = true
  size : name.utf8ByteSize ≤ kFirebaseMaxLeafSize
  latitude : coordinate.latitude.isNaN = false
  longitude : coordinate.longitude.isNaN = false

instance (name : String) (coordinate : CLLocationCoordinate2D) :
    Decidable (Accepted name coordinate) :=
  decidable_of_iff (isValidPathString name = true ∧ name.utf8ByteSize ≤ kFirebaseMaxLeafSize ∧
      coordinate.latitude.isNaN = false ∧ coordinate.longitude.isNaN = false)
    ⟨fun h => ⟨h.1, h.2.1, h.2.2.1, h.2.2.2⟩, fun h => ⟨h.1, h.2, h.3, h.4⟩⟩

theorem entriesFrom_pick (name : String) (coordinate : CLLocationCoordinate2D)
    (entries : List (Key × FNode Key)) :
    entriesFrom "setValue:" (Pick.named name coordinate).toAnyObject = .ok entries ↔
      name.utf8ByteSize ≤ kFirebaseMaxLeafSize ∧ coordinate.latitude.isNaN = false ∧
        coordinate.longitude.isNaN = false ∧ pickNode name coordinate = .children entries := by
  have sorted : put Pick.titleText (.leaf (.string name) : FNode Key)
      (put Pick.latitudeText (.leaf (.number coordinate.latitude))
        (put Pick.longitudeText (.leaf (.number coordinate.longitude)) [])) =
      [(Pick.latitudeText, FNode.leaf (.number coordinate.latitude)),
        (Pick.longitudeText, FNode.leaf (.number coordinate.longitude)),
        (Pick.titleText, FNode.leaf (.string name))] := by
    simp [put, show Pick.latitudeText ≠ Pick.longitudeText by decide,
      show Pick.latitudeText < Pick.longitudeText by decide,
      show Pick.titleText ≠ Pick.latitudeText by decide,
      show ¬ Pick.titleText < Pick.latitudeText by decide,
      show Pick.titleText ≠ Pick.longitudeText by decide,
      show ¬ Pick.titleText < Pick.longitudeText by decide]
  simp only [Pick.toAnyObject, Pick.named, Option.getD_some, entriesFrom, validateLeafValue]
  by_cases large : name.utf8ByteSize > kFirebaseMaxLeafSize
  · simp [large, Nat.not_le.mpr large]
  · cases hlat : coordinate.latitude.isNaN <;> cases hlon : coordinate.longitude.isNaN <;>
      simp [large, Nat.not_lt.mp large, sorted, pickNode]

/-- `addNewPick` succeeds exactly on accepted arguments, with the pick's node at the
path the name resolves to. -/
theorem PicksPresenter.addNewPick_eq_ok_iff (presenter : PicksPresenter) (name : String)
    (coordinate : CLLocationCoordinate2D) (write : DatabaseWrite) :
    presenter.addNewPick name coordinate = .ok write ↔
      Accepted name coordinate ∧
        write = ⟨presenter.ref.path ++ pathPieces name, pickNode name coordinate⟩ := by
  unfold PicksPresenter.addNewPick
  cases accepted : isValidPathString name with
  | false =>
      have refused : ¬ Accepted name coordinate := fun a => by simp [a.path] at accepted
      simp [DatabaseReference.child, validatePathString, accepted, refused]
  | true =>
      obtain ⟨pickRef, href⟩ : ∃ pickRef, presenter.ref.child name = .ok pickRef := by
        simp [DatabaseReference.child, validatePathString, accepted]
      have hpath := ((DatabaseReference.child_eq_ok_iff _ _ _).mp href).2
      simp only [href, DatabaseReference.setValue]
      cases hentries : entriesFrom "setValue:" (Pick.named name coordinate).toAnyObject with
      | error exception =>
          simp only [reduceCtorEq, false_iff, not_and]
          intro a
          have := (entriesFrom_pick name coordinate _).mpr ⟨a.size, a.latitude, a.longitude, rfl⟩
          rw [hentries] at this
          cases this
      | ok entries =>
          obtain ⟨size, latitude, longitude, hnode⟩ :=
            (entriesFrom_pick name coordinate entries).mp hentries
          simp only [Except.ok.injEq, hnode, ← hpath]
          exact ⟨fun same => ⟨⟨accepted, size, latitude, longitude⟩, same.symm⟩,
            fun both => both.2.symm⟩

theorem pickNode_wellFormed (name : String) (coordinate : CLLocationCoordinate2D) :
    (pickNode name coordinate).WellFormed := by
  refine .children ?_ ?_ ?_
  · simp only [Sorted, List.pairwise_cons, List.mem_cons, forall_eq_or_imp, List.not_mem_nil,
      false_implies, implies_true, and_true, List.Pairwise.nil]
    exact ⟨⟨by decide, by decide⟩, by decide⟩
  · simp [FNode.isEmpty]
  · simp [FNode.WellFormed.leaf]

end PicksOnMap.Source
