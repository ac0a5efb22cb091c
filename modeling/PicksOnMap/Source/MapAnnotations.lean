import PicksOnMap.Source.MapScreen

/-!
# Annotations and their views

Source pin: MapViewController.swift:70-101,124-144,167-174; Pressable.swift:15-20;
PicksPresenter.swift:22-32; Model/Pick.swift:26-38. The map screen again, with the
identity of the `Pick` objects: a snapshot makes new ones, `updateData` takes every
annotation off the map and adds the current ones, and `centerIfNeeded` hands a block to
the main queue that has captured the object it found. MapKit asks for a view of an
annotation and may hand out one it was given before, once that one's annotation has been
removed; `mapView(_:viewFor:)` adds a tap recogniser to whatever it is handed.
-/
namespace PicksOnMap.Source

open Support

/-- A `Pick` object; `===` compares the number. -/
structure PickObject where
  id : Nat
  pick : Pick
  deriving DecidableEq

/-- The objects that the snapshot handler makes, numbered from `next`. -/
def freshObjects : Nat → List Pick → List PickObject
  | _, [] => []
  | next, pick :: rest => ⟨next, pick⟩ :: freshObjects (next + 1) rest

structure ObjectPresenter where
  picks : List PickObject
  ref : DatabaseReference

/-- A block handed to `asyncAfter` by `centerIfNeeded`. -/
structure DelayedSelection where
  id : Nat
  captured : PickObject
  deriving DecidableEq

/-- A view returned for a pick. It may be dequeued again once `removed`. -/
structure MKAnnotationView where
  annotated : PickObject
  removed : Bool := false
  tapRecognizers : Nat := 0
  deriving DecidableEq

/-- Views are numbered in the order in which they were made. -/
structure AnnotatedMap where
  presenter : Option ObjectPresenter := .none
  needCenter : NeedCenterState := .none
  onScreen : Bool := false
  annotations : List PickObject := []
  allocated : Nat := 0
  scheduled : List DelayedSelection := []
  opened : Nat := 0
  views : List MKAnnotationView := []

/-- What `mapView(_:viewFor:)` is called for is a pick or another annotation; which view
it is handed is MapKit's choice. So is how many recognisers of a view recognise a tap. -/
inductive AnnotationEvent where
  | screen (event : MapEvent)
  | blockFired (id : Nat)
  | viewFor (requested : Option PickObject) (dequeued : Option Nat)
  | tapped (view : Nat) (recognized : Nat) (selectedAnnotations : List PickObject)

inductive MapAction where
  | centerMap (centring : Centring)
  | annotationSelected (object : PickObject)
  | returned (view : Nat)
  | deselectLater (object : PickObject)
  deriving DecidableEq

variable (unicode : UnicodeData)

/-- `presenter.picks.first(where: { $0.title == pick.title })`, as an object. -/
def firstTitledObject (objects : List PickObject) (title : Option String) : Option PickObject :=
  objects.find? fun candidate => unicode.optionalEqual candidate.pick.title title

def addTapGestureRecognizer (view : MKAnnotationView) : MKAnnotationView :=
  { view with tapRecognizers := view.tapRecognizers + 1 }

/-- The view leaves the map with its annotation. -/
def MKAnnotationView.remove (view : MKAnnotationView) : MKAnnotationView :=
  { view with removed := true }

/-- A view from the queue is used again for `object`. -/
def MKAnnotationView.reuse (object : PickObject) (view : MKAnnotationView) :
    MKAnnotationView :=
  { view with annotated := object, removed := false }

namespace AnnotatedMap

def initial : AnnotatedMap := {}

def picks (map : AnnotatedMap) : List PickObject :=
  match map.presenter with
  | some presenter => presenter.picks
  | none => []

def centerIfNeeded (map : AnnotatedMap) (currentLocation : Option CLLocationCoordinate2D) :
    AnnotatedMap × List MapAction :=
  match map.needCenter with
  | .toPick pick =>
      match firstTitledObject unicode map.picks pick.title with
      | none => (map, [])
      | some found =>
          ({ map with
              needCenter := .none
              scheduled := map.scheduled ++ [⟨map.opened, found⟩]
              opened := map.opened + 1 }, [.centerMap (.onPick found.pick)])
  | .toCurrentLocation =>
      match currentLocation with
      | none => (map, [])
      | some location =>
          ({ map with needCenter := .none }, [.centerMap (.onCurrentLocation location)])
  | .none => (map, [])

/-- `updateData()`, up to its call of `centerIfNeeded`. -/
def replaceAnnotations (map : AnnotatedMap) : AnnotatedMap :=
  { map with annotations := map.picks, views := map.views.map MKAnnotationView.remove }

/-- The snapshot handler, up to its call of `updateData`. -/
def handleSnapshot (map : AnnotatedMap) (snapshot : DataSnapshot) : AnnotatedMap :=
  { map with
    presenter := map.presenter.map fun presenter =>
      { presenter with picks := freshObjects map.allocated (decodedPicks snapshot) }
    allocated := map.allocated + (decodedPicks snapshot).length }

def handleScreen (map : AnnotatedMap) : MapEvent → AnnotatedMap × List MapAction
  | .rowSelected pick => ({ map with needCenter := .toPick pick }, [])
  | .viewDidLoad currentUser =>
      ({ map with presenter := some ⟨[], accountReference currentUser⟩ }, [])
  | .viewDidAppear =>
      let needCenter := match map.needCenter with
        | .none => .toCurrentLocation
        | pending => pending
      ({ map with needCenter := needCenter, onScreen := true } : AnnotatedMap).centerIfNeeded
        unicode none
  | .viewDidDisappear => ({ map with needCenter := .none, onScreen := false }, [])
  | .snapshot snapshot => (map.handleSnapshot snapshot).replaceAnnotations.centerIfNeeded unicode none
  | .addNewPick => map.replaceAnnotations.centerIfNeeded unicode none
  | .didUpdate userLocation => map.centerIfNeeded unicode (some userLocation)

def block? (map : AnnotatedMap) (id : Nat) : Option DelayedSelection :=
  map.scheduled.find? fun block => block.id == id

def fire (map : AnnotatedMap) (id : Nat) : AnnotatedMap × List MapAction :=
  match map.block? id with
  | none => (map, [])
  | some block =>
      ({ map with scheduled := map.scheduled.filter fun other => other.id != id },
        [.annotationSelected block.captured])

/-- `mapView(_:viewFor:)` -/
def viewFor (map : AnnotatedMap) (requested : Option PickObject) (dequeued : Option Nat) :
    AnnotatedMap × List MapAction :=
  match requested with
  | none => (map, [])
  | some pick =>
      match dequeued with
      | none =>
          ({ map with views := map.views ++ [addTapGestureRecognizer { annotated := pick }] },
            [.returned map.views.length])
      | some index =>
          ({ map with
              views := map.views.modify index fun view => addTapGestureRecognizer (view.reuse pick) },
            [.returned index])

/-- Every recogniser that recognises the tap calls `handleTap`. -/
def tap (map : AnnotatedMap) (index recognized : Nat) (selectedAnnotations : List PickObject) :
    List MapAction :=
  match map.views[index]? with
  | none => []
  | some view =>
      if selectedAnnotations.any fun selected => selected.id == view.annotated.id then
        List.replicate recognized (.deselectLater view.annotated)
      else []

def handle (map : AnnotatedMap) : AnnotationEvent → AnnotatedMap × List MapAction
  | .screen event => map.handleScreen unicode event
  | .blockFired id => map.fire id
  | .viewFor requested dequeued => map.viewFor requested dequeued
  | .tapped index recognized selectedAnnotations =>
      (map, map.tap index recognized selectedAnnotations)

/-- The screen without the identities. -/
def toScreen (map : AnnotatedMap) : MapViewController where
  presenter := map.presenter.map fun presenter => ⟨presenter.picks.map PickObject.pick, presenter.ref⟩
  needCenter := map.needCenter
  onScreen := map.onScreen

/-- A view that MapKit may hand out again. -/
def Dequeueable (map : AnnotatedMap) (index : Nat) : Prop :=
  ((map.views[index]?).map MKAnnotationView.removed) = some true

def Enabled (map : AnnotatedMap) : AnnotationEvent → Prop
  | .screen event => map.toScreen.Enabled event
  | .blockFired id => (map.block? id).isSome
  | .viewFor none _ => True
  | .viewFor (some pick) none => pick ∈ map.annotations
  | .viewFor (some pick) (some index) => pick ∈ map.annotations ∧ map.Dequeueable index
  | .tapped index recognized _ =>
      0 < recognized ∧ recognized ≤ ((map.views[index]?).map MKAnnotationView.tapRecognizers).getD 0

end AnnotatedMap

instance (map : AnnotatedMap) (event : AnnotationEvent) : Decidable (map.Enabled event) :=
  match event with
  | .screen event => inferInstanceAs (Decidable (map.toScreen.Enabled event))
  | .blockFired _ => inferInstanceAs (Decidable (_ = true))
  | .viewFor none _ => inferInstanceAs (Decidable True)
  | .viewFor (some pick) none => inferInstanceAs (Decidable (pick ∈ map.annotations))
  | .viewFor (some pick) (some index) =>
      inferInstanceAs (Decidable (pick ∈ map.annotations ∧
        ((map.views[index]?).map MKAnnotationView.removed) = some true))
  | .tapped _ _ _ => inferInstanceAs (Decidable (_ ∧ _))

def annotatedMap : EventSystem AnnotatedMap AnnotationEvent MapAction where
  enabled := AnnotatedMap.Enabled
  next map event := (map.handle unicode event).1
  emits map event := (map.handle unicode event).2

instance (map : AnnotatedMap) (event : AnnotationEvent) :
    Decidable ((annotatedMap unicode).enabled map event) :=
  inferInstanceAs (Decidable (map.Enabled event))

end PicksOnMap.Source
