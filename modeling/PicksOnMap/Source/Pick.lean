import PicksOnMap.Source.DatabaseReference

/-!
# Picks

Source pin: Model/Pick.swift:13-56. A pick read from the database keeps the
reference it was read from; a pick the user has just named has none.
-/
namespace PicksOnMap.Source

open Support Support.SortedEntries

structure CLLocationCoordinate2D where
  latitude : Double
  longitude : Double
  deriving DecidableEq, Repr

structure Pick where
  ref : Option DatabaseReference
  title : Option String
  coordinate : CLLocationCoordinate2D
  deriving DecidableEq

namespace Pick

def titleText : Key := ⟨"title", by decide⟩
def latitudeText : Key := ⟨"latitude", by decide⟩
def longitudeText : Key := ⟨"longitude", by decide⟩

/-- `init(name:coordinate:)` -/
def named (name : String) (coordinate : CLLocationCoordinate2D) : Pick :=
  ⟨none, some name, coordinate⟩

/-- `init?(with:)` -/
def init? (snapshot : DataSnapshot) : Option Pick := do
  let value ← snapshot.value.asDictionary
  let title ← (get? titleText value).bind AnyValue.asString
  let latitude ← (get? latitudeText value).bind AnyValue.asDouble
  let longitude ← (get? longitudeText value).bind AnyValue.asDouble
  return ⟨some snapshot.ref, some title, ⟨latitude, longitude⟩⟩

def toAnyObject (pick : Pick) : List (Key × FValue) :=
  [(titleText, .string (pick.title.getD "")),
    (latitudeText, .number pick.coordinate.latitude),
    (longitudeText, .number pick.coordinate.longitude)]

/-- The database key of a pick that was read from the database. -/
def key (pick : Pick) : Option Key := pick.ref.map DatabaseReference.key

def fields : List Key := [titleText, latitudeText, longitudeText]

theorem integerKey_of_mem_fields {field : Key} (member : field ∈ fields) :
    integerKey field = none := by
  simp only [fields, List.mem_cons, List.not_mem_nil, or_false] at member
  rcases member with rfl | rfl | rfl <;> decide

theorem read_string_iff {field : Key} (member : field ∈ fields) (node : FNode Key) (s : String) :
    (node.val.asDictionary.bind (get? field)).bind AnyValue.asString = some s ↔
      node.leafAt [field] = some (.string s) := by
  rw [FNode.val_field (integerKey_of_mem_fields member)]
  cases node with
  | leaf value => simp [FNode.leafAt, FNode.getChild, FNode.emptyNode]
  | children entries =>
      rw [FNode.leafAt_cons]
      simp only [FNode.getImmediateChild]
      cases get? field entries with
      | none => simp [FNode.leafAt, FNode.getChild, FNode.emptyNode]
      | some child =>
          change child.val.asString = some s ↔ _
          rw [FNode.val_eq_string_iff]
          cases child <;> simp [FNode.leafAt, FNode.getChild]

theorem read_number_iff {field : Key} (member : field ∈ fields) (node : FNode Key) (d : Double) :
    (node.val.asDictionary.bind (get? field)).bind AnyValue.asDouble = some d ↔
      node.leafAt [field] = some (.number d) := by
  rw [FNode.val_field (integerKey_of_mem_fields member)]
  cases node with
  | leaf value => simp [FNode.leafAt, FNode.getChild, FNode.emptyNode]
  | children entries =>
      rw [FNode.leafAt_cons]
      simp only [FNode.getImmediateChild]
      cases get? field entries with
      | none => simp [FNode.leafAt, FNode.getChild, FNode.emptyNode]
      | some child =>
          change child.val.asDouble = some d ↔ _
          rw [FNode.val_eq_number_iff]
          cases child <;> simp [FNode.leafAt, FNode.getChild]

/-- A node reads as a pick exactly when its three fields are leaves of the right
type; nothing else below the node matters. -/
theorem init?_eq_some_iff (snapshot : DataSnapshot) (pick : Pick) :
    init? snapshot = some pick ↔
      ∃ title latitude longitude,
        snapshot.node.leafAt [titleText] = some (.string title) ∧
        snapshot.node.leafAt [latitudeText] = some (.number latitude) ∧
        snapshot.node.leafAt [longitudeText] = some (.number longitude) ∧
        pick = ⟨some snapshot.ref, some title, ⟨latitude, longitude⟩⟩ := by
  have title_mem : titleText ∈ fields := by simp [fields]
  have latitude_mem : latitudeText ∈ fields := by simp [fields]
  have longitude_mem : longitudeText ∈ fields := by simp [fields]
  simp only [← read_string_iff title_mem, ← read_number_iff latitude_mem,
    ← read_number_iff longitude_mem]
  unfold init? DataSnapshot.value
  cases snapshot.node.val.asDictionary with
  | none => simp
  | some value =>
      simp only [Option.bind_eq_bind, Option.bind_some, Option.bind_eq_some_iff, Option.pure_def,
        Option.some.injEq]
      constructor
      · intro read
        obtain ⟨title, htitle, latitude, hlatitude, longitude, hlongitude, rfl⟩ := read
        exact ⟨title, latitude, longitude, htitle, hlatitude, hlongitude, rfl⟩
      · intro leaves
        obtain ⟨title, latitude, longitude, htitle, hlatitude, hlongitude, rfl⟩ := leaves
        exact ⟨title, htitle, latitude, hlatitude, longitude, hlongitude, rfl⟩

end Pick

end PicksOnMap.Source
