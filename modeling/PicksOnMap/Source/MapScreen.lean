import PicksOnMap.Source.PicksPresenter
import PicksOnMap.Source.SwiftString
import PicksOnMap.Support.EventSystem

/-!
# The map screen

Source pin: MapViewController.swift:13-106,138-140; ListTableViewController.swift:40-49;
PicksPresenter.swift:30-31,41. `needCenter` is written by the list when a row is
selected, and by the map itself when it appears, disappears or has centred. What
UIKit promises about the order of the callbacks is the system's `enabled`: the view
loads once and before it appears, it appears and disappears in turn, rows are
selected while it is off screen, and data and locations arrive once it has loaded.
-/
namespace PicksOnMap.Source

open Support

inductive NeedCenterState where
  | none
  | toPick (pick : Pick)
  | toCurrentLocation
  deriving DecidableEq

/-- A call of `centerMap` by `centerIfNeeded`, on the coordinate of a pick of the list
or on the one of the user's location. -/
inductive Centring where
  | onPick (pick : Pick)
  | onCurrentLocation (coordinate : CLLocationCoordinate2D)
  deriving DecidableEq

/-- `presenter` is nil until the view has loaded. -/
structure MapViewController where
  presenter : Option PicksPresenter := .none
  needCenter : NeedCenterState := .none
  onScreen : Bool := false

inductive MapEvent where
  | rowSelected (pick : Pick)
  | viewDidLoad (currentUser : Option Key)
  | viewDidAppear
  | viewDidDisappear
  | snapshot (snapshot : DataSnapshot)
  | addNewPick
  | didUpdate (userLocation : CLLocationCoordinate2D)

variable (unicode : UnicodeData)

/-- `presenter.picks.first(where: { $0.title == pick.title })` -/
def firstTitled (picks : List Pick) (title : Option String) : Option Pick :=
  picks.find? fun candidate => unicode.optionalEqual candidate.title title

theorem firstTitled_eq_some {picks : List Pick} {title : Option String} {found : Pick}
    (first : firstTitled unicode picks title = some found) :
    found ∈ picks ∧ unicode.optionalEqual found.title title = true :=
  ⟨List.mem_of_find?_eq_some first, by simpa using List.find?_some first⟩

namespace MapViewController

/-- As the storyboard makes it. -/
def initial : MapViewController := {}

def picks (map : MapViewController) : List Pick :=
  match map.presenter with
  | some presenter => presenter.picks
  | none => []

/-- `self.needCenter = .none` -/
def served (map : MapViewController) : MapViewController := { map with needCenter := .none }

@[simp] theorem served_needCenter (map : MapViewController) : map.served.needCenter = .none := rfl

@[simp] theorem served_onScreen (map : MapViewController) : map.served.onScreen = map.onScreen :=
  rfl

def centerIfNeeded (map : MapViewController) (currentLocation : Option CLLocationCoordinate2D) :
    MapViewController × List Centring :=
  match map.needCenter with
  | .toPick pick =>
      match firstTitled unicode map.picks pick.title with
      | none => (map, [])
      | some found => (map.served, [.onPick found])
  | .toCurrentLocation =>
      match currentLocation with
      | none => (map, [])
      | some location => (map.served, [.onCurrentLocation location])
  | .none => (map, [])

def handle (map : MapViewController) : MapEvent → MapViewController × List Centring
  | .rowSelected pick => ({ map with needCenter := .toPick pick }, [])
  | .viewDidLoad currentUser =>
      ({ map with presenter := some (PicksPresenter.create currentUser) }, [])
  | .viewDidAppear =>
      let needCenter := match map.needCenter with
        | .none => .toCurrentLocation
        | pending => pending
      ({ map with needCenter := needCenter, onScreen := true } : MapViewController).centerIfNeeded
        unicode none
  | .viewDidDisappear => ({ map with needCenter := .none, onScreen := false }, [])
  | .snapshot snapshot =>
      ({ map with presenter := map.presenter.map (·.handleSnapshot snapshot) } :
        MapViewController).centerIfNeeded unicode none
  | .addNewPick => map.centerIfNeeded unicode none
  | .didUpdate userLocation => map.centerIfNeeded unicode (some userLocation)

def Enabled (map : MapViewController) : MapEvent → Prop
  | .rowSelected _ => map.onScreen = false
  | .viewDidLoad _ => map.presenter = none
  | .viewDidAppear => map.presenter.isSome ∧ map.onScreen = false
  | .viewDidDisappear => map.onScreen = true
  | .snapshot _ | .addNewPick | .didUpdate _ => map.presenter.isSome

end MapViewController

instance (map : MapViewController) (event : MapEvent) : Decidable (map.Enabled event) :=
  match event with
  | .rowSelected _ => inferInstanceAs (Decidable (_ = _))
  | .viewDidLoad _ => inferInstanceAs (Decidable (_ = _))
  | .viewDidAppear => inferInstanceAs (Decidable (_ ∧ _))
  | .viewDidDisappear => inferInstanceAs (Decidable (_ = _))
  | .snapshot _ | .addNewPick | .didUpdate _ => inferInstanceAs (Decidable (_ = true))

def mapScreen : EventSystem MapViewController MapEvent Centring where
  enabled := MapViewController.Enabled
  next map event := (map.handle unicode event).1
  emits map event := (map.handle unicode event).2

instance (map : MapViewController) (event : MapEvent) :
    Decidable ((mapScreen unicode).enabled map event) :=
  inferInstanceAs (Decidable (map.Enabled event))

end PicksOnMap.Source
