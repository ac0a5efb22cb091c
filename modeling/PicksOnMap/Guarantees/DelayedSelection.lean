import PicksOnMap.Guarantees.MapCentering
import PicksOnMap.Source.MapAnnotations

/-!
# The delayed selection

Source pin: as in `MapAnnotations`. With the identities left out, the annotated map is
the map screen (`annotatedMap_refines`), so when it centres is known. What is new is the
object a block has captured. Objects are numbered as they are made, so no object of a
later snapshot is the captured one; and as long as no snapshot comes in, the captured
object is still the first of its title (`Origin`). A block therefore selects the current
annotation exactly if no snapshot has come in since it was scheduled
(`delayed_selection_iff`).
-/
namespace PicksOnMap.Guarantees

open Source Support

variable (unicode : UnicodeData)

/-! ## New objects -/

theorem freshObjects_pick (next : Nat) (picks : List Pick) :
    (freshObjects next picks).map PickObject.pick = picks := by
  induction picks generalizing next with
  | nil => rfl
  | cons pick rest ih => simp [freshObjects, ih]

theorem id_of_mem_freshObjects {next : Nat} {picks : List Pick} {object : PickObject}
    (member : object ∈ freshObjects next picks) :
    next ≤ object.id ∧ object.id < next + picks.length := by
  induction picks generalizing next with
  | nil => cases member
  | cons pick rest ih =>
      rw [List.length_cons]
      rcases List.mem_cons.mp member with first | later
      · subst first
        simp only
        omega
      · have := ih later
        omega

theorem firstTitledObject_pick (objects : List PickObject) (title : Option String) :
    (firstTitledObject unicode objects title).map PickObject.pick =
      firstTitled unicode (objects.map PickObject.pick) title := by
  simp only [firstTitledObject, firstTitled, List.find?_map]
  rfl

/-! ## The annotated map as a map screen -/

/-- What an event of the screen does before the map tries to centre. -/
def preparedObjects (map : AnnotatedMap) : MapEvent → AnnotatedMap
  | .rowSelected pick => { map with needCenter := .toPick pick }
  | .viewDidLoad currentUser =>
      { map with presenter := some ⟨[], accountReference currentUser⟩ }
  | .viewDidAppear =>
      { map with
        needCenter := match map.needCenter with
          | .none => .toCurrentLocation
          | pending => pending
        onScreen := true }
  | .viewDidDisappear => { map with needCenter := .none, onScreen := false }
  | .snapshot snapshot => (map.handleSnapshot snapshot).replaceAnnotations
  | .addNewPick => map.replaceAnnotations
  | .didUpdate _ => map

theorem handleScreen_eq (map : AnnotatedMap) (event : MapEvent) :
    map.handleScreen unicode event =
      match attempt event with
      | none => (preparedObjects map event, [])
      | some currentLocation => (preparedObjects map event).centerIfNeeded unicode currentLocation := by
  cases event <;> rfl

def centring? : MapAction → Option Centring
  | .centerMap centring => some centring
  | _ => none

theorem toScreen_picks (map : AnnotatedMap) :
    map.toScreen.picks = map.picks.map PickObject.pick := by
  unfold MapViewController.picks AnnotatedMap.picks AnnotatedMap.toScreen
  cases map.presenter <;> rfl

theorem toScreen_prepared (map : AnnotatedMap) (event : MapEvent) :
    (preparedObjects map event).toScreen = prepared map.toScreen event := by
  cases event with
  | snapshot snapshot =>
      simp only [preparedObjects, prepared, AnnotatedMap.toScreen, AnnotatedMap.handleSnapshot,
        AnnotatedMap.replaceAnnotations]
      cases map.presenter with
      | none => rfl
      | some presenter => simp [freshObjects_pick, PicksPresenter.handleSnapshot]
  | _ => rfl

theorem toScreen_centerIfNeeded (map : AnnotatedMap)
    (currentLocation : Option CLLocationCoordinate2D) :
    (map.centerIfNeeded unicode currentLocation).1.toScreen =
        (map.toScreen.centerIfNeeded unicode currentLocation).1 ∧
      (map.centerIfNeeded unicode currentLocation).2.filterMap centring? =
        (map.toScreen.centerIfNeeded unicode currentLocation).2 := by
  have same : map.toScreen.needCenter = map.needCenter := rfl
  unfold AnnotatedMap.centerIfNeeded MapViewController.centerIfNeeded
  rw [same]
  cases map.needCenter with
  | none => exact ⟨rfl, rfl⟩
  | toPick pick =>
      simp only [toScreen_picks, ← firstTitledObject_pick]
      cases firstTitledObject unicode map.picks pick.title <;> exact ⟨rfl, rfl⟩
  | toCurrentLocation => cases currentLocation <;> exact ⟨rfl, rfl⟩

/-- The event of the map screen, if it is one. -/
def screenEvent? : AnnotationEvent → Option MapEvent
  | .screen event => some event
  | _ => none

/-- All that a tap leads to is deferred deselections. -/
theorem deselectLater_of_mem_tap {map : AnnotatedMap} {index recognized : Nat}
    {selectedAnnotations : List PickObject} {action : MapAction}
    (member : action ∈ map.tap index recognized selectedAnnotations) :
    ∃ object, action = .deselectLater object := by
  unfold AnnotatedMap.tap at member
  cases held : map.views[index]? with
  | none => simp [held] at member
  | some view =>
      simp only [held] at member
      split at member
      · exact ⟨view.annotated, List.eq_of_mem_replicate member⟩
      · cases member

theorem toScreen_next (map : AnnotatedMap) (event : AnnotationEvent) :
    ((annotatedMap unicode).next map event).toScreen =
        (mapScreen unicode).exec map.toScreen (screenEvent? event).toList ∧
      ((annotatedMap unicode).emits map event).filterMap centring? =
        (mapScreen unicode).outputs map.toScreen (screenEvent? event).toList := by
  cases event with
  | screen event =>
      simp only [annotatedMap, AnnotatedMap.handle, screenEvent?, Option.toList_some,
        EventSystem.exec_cons, EventSystem.exec_nil, EventSystem.outputs, List.append_nil, mapScreen,
        handleScreen_eq, handle_eq, ← toScreen_prepared]
      cases attempt event with
      | none => exact ⟨rfl, rfl⟩
      | some currentLocation => exact toScreen_centerIfNeeded unicode _ currentLocation
  | blockFired id =>
      simp only [annotatedMap, AnnotatedMap.handle, AnnotatedMap.fire]
      cases map.block? id <;> exact ⟨rfl, rfl⟩
  | viewFor requested dequeued =>
      simp only [annotatedMap, AnnotatedMap.handle, AnnotatedMap.viewFor]
      cases requested with
      | none => exact ⟨rfl, rfl⟩
      | some pick => cases dequeued <;> exact ⟨rfl, rfl⟩
  | tapped index recognized selectedAnnotations =>
      refine ⟨rfl, List.filterMap_eq_nil_iff.mpr fun action member => ?_⟩
      obtain ⟨object, rfl⟩ := deselectLater_of_mem_tap member
      rfl

/-- Every run of the annotated map is one of the map screen, with the same centrings. -/
theorem annotatedMap_refines (map : AnnotatedMap) (events : List AnnotationEvent) :
    ((annotatedMap unicode).exec map events).toScreen =
        (mapScreen unicode).exec map.toScreen (events.filterMap screenEvent?) ∧
      ((annotatedMap unicode).outputs map events).filterMap centring? =
        (mapScreen unicode).outputs map.toScreen (events.filterMap screenEvent?) := by
  induction events generalizing map with
  | nil => exact ⟨rfl, rfl⟩
  | cons event rest ih =>
      obtain ⟨state, centrings⟩ := toScreen_next unicode map event
      obtain ⟨laterState, laterCentrings⟩ := ih ((annotatedMap unicode).next map event)
      have split : (event :: rest).filterMap screenEvent? =
          (screenEvent? event).toList ++ rest.filterMap screenEvent? := by
        cases seen : screenEvent? event <;> simp [seen]
      rw [state] at laterState laterCentrings
      rw [split, EventSystem.exec_append, EventSystem.outputs_append]
      exact ⟨laterState, by simp [EventSystem.outputs, centrings, laterCentrings]⟩

/-! ## What a step does to the objects -/

/-- What `centerIfNeeded` leaves alone, and the one block it may schedule. -/
theorem centerIfNeeded_objects (map : AnnotatedMap)
    (currentLocation : Option CLLocationCoordinate2D) :
    (map.centerIfNeeded unicode currentLocation).1.presenter = map.presenter ∧
      (map.centerIfNeeded unicode currentLocation).1.annotations = map.annotations ∧
      (map.centerIfNeeded unicode currentLocation).1.allocated = map.allocated ∧
      ((map.centerIfNeeded unicode currentLocation).1.scheduled = map.scheduled ∨
        ∃ title found, firstTitledObject unicode map.picks title = some found ∧
          (map.centerIfNeeded unicode currentLocation).1.scheduled =
            map.scheduled ++ [⟨map.opened, found⟩]) := by
  unfold AnnotatedMap.centerIfNeeded
  cases map.needCenter with
  | none => exact ⟨rfl, rfl, rfl, .inl rfl⟩
  | toPick pick =>
      simp only
      cases first : firstTitledObject unicode map.picks pick.title with
      | none => exact ⟨rfl, rfl, rfl, .inl rfl⟩
      | some found => exact ⟨rfl, rfl, rfl, .inr ⟨pick.title, found, first, rfl⟩⟩
  | toCurrentLocation => cases currentLocation <;> exact ⟨rfl, rfl, rfl, .inl rfl⟩

theorem picks_congr {map other : AnnotatedMap} (same : map.presenter = other.presenter) :
    map.picks = other.picks := by
  unfold AnnotatedMap.picks
  rw [same]

/-- What an event makes of the objects, apart from the blocks. -/
def objectsAfter (map : AnnotatedMap) : AnnotationEvent → AnnotatedMap
  | .screen event => preparedObjects map event
  | _ => map

/-- A step makes of the presenter, the annotations and the allocation what
`objectsAfter` says, and schedules at most one block, for the first object of a title. -/
theorem objects_next (map : AnnotatedMap) (event : AnnotationEvent) :
    ((annotatedMap unicode).next map event).presenter = (objectsAfter map event).presenter ∧
      ((annotatedMap unicode).next map event).annotations = (objectsAfter map event).annotations ∧
      ((annotatedMap unicode).next map event).allocated = (objectsAfter map event).allocated ∧
      ((∀ block ∈ ((annotatedMap unicode).next map event).scheduled, block ∈ map.scheduled) ∨
        ∃ title found,
          firstTitledObject unicode ((annotatedMap unicode).next map event).picks title =
            some found ∧
          ((annotatedMap unicode).next map event).scheduled =
            map.scheduled ++ [⟨map.opened, found⟩]) := by
  cases event with
  | screen event =>
      have unscheduled : (preparedObjects map event).scheduled = map.scheduled ∧
          (preparedObjects map event).opened = map.opened := by
        cases event <;> exact ⟨rfl, rfl⟩
      simp only [annotatedMap, AnnotatedMap.handle, handleScreen_eq, objectsAfter]
      cases attempt event with
      | none => exact ⟨rfl, rfl, rfl, .inl fun block member => by rwa [unscheduled.1] at member⟩
      | some currentLocation =>
          obtain ⟨presenter, annotations, allocated, kept | ⟨title, found, first, more⟩⟩ :=
            centerIfNeeded_objects unicode (preparedObjects map event) currentLocation
          · refine ⟨presenter, annotations, allocated, .inl fun block member => ?_⟩
            rwa [kept, unscheduled.1] at member
          · rw [unscheduled.1, unscheduled.2] at more
            refine ⟨presenter, annotations, allocated, .inr ⟨title, found, ?_, more⟩⟩
            rw [picks_congr presenter]
            exact first
  | blockFired id =>
      simp only [annotatedMap, AnnotatedMap.handle, AnnotatedMap.fire, objectsAfter]
      cases map.block? id with
      | none => exact ⟨rfl, rfl, rfl, .inl fun _ member => member⟩
      | some block => exact ⟨rfl, rfl, rfl, .inl fun _ member => List.mem_of_mem_filter member⟩
  | viewFor requested dequeued =>
      simp only [annotatedMap, AnnotatedMap.handle, AnnotatedMap.viewFor, objectsAfter]
      cases requested with
      | none => exact ⟨rfl, rfl, rfl, .inl fun _ member => member⟩
      | some pick => cases dequeued <;> exact ⟨rfl, rfl, rfl, .inl fun _ member => member⟩
  | tapped index recognized selectedAnnotations =>
      exact ⟨rfl, rfl, rfl, .inl fun _ member => member⟩

/-- The list of a legal step changes with a snapshot only; the first one it is asked for
finds no list to change. -/
theorem picks_objectsAfter {map : AnnotatedMap} {event : AnnotationEvent}
    (enabled : (annotatedMap unicode).enabled map event) :
    (∃ snapshot, event = .screen (.snapshot snapshot) ∧
      (objectsAfter map event).picks = freshObjects map.allocated (decodedPicks snapshot) ∧
      (objectsAfter map event).allocated = map.allocated + (decodedPicks snapshot).length) ∨
    ((∀ snapshot, event ≠ .screen (.snapshot snapshot)) ∧
      (objectsAfter map event).picks = map.picks ∧
      (objectsAfter map event).allocated = map.allocated) := by
  cases event with
  | screen event =>
      cases event with
      | snapshot snapshot =>
          have loaded : (map.presenter.map fun presenter => (⟨presenter.picks.map PickObject.pick,
              presenter.ref⟩ : PicksPresenter)).isSome := enabled
          refine .inl ⟨snapshot, rfl, ?_, rfl⟩
          simp only [objectsAfter, preparedObjects, AnnotatedMap.picks,
            AnnotatedMap.replaceAnnotations, AnnotatedMap.handleSnapshot]
          cases held : map.presenter with
          | none => simp [held] at loaded
          | some presenter => rfl
      | viewDidLoad currentUser =>
          have unloaded : map.toScreen.presenter = none := enabled
          have absent : map.presenter = none := by
            simpa [AnnotatedMap.toScreen] using unloaded
          refine .inr ⟨by simp, ?_, rfl⟩
          simp only [objectsAfter, preparedObjects, AnnotatedMap.picks, absent]
      | _ => exact .inr ⟨by simp, rfl, rfl⟩
  | _ => exact .inr ⟨by simp, rfl, rfl⟩

theorem allocated_le_next {map : AnnotatedMap} {event : AnnotationEvent}
    (enabled : (annotatedMap unicode).enabled map event) :
    map.allocated ≤ ((annotatedMap unicode).next map event).allocated := by
  obtain ⟨_, _, allocated, _⟩ := objects_next unicode map event
  rw [allocated]
  rcases picks_objectsAfter unicode enabled with ⟨_, _, _, grown⟩ | ⟨_, _, same⟩ <;> omega

/-- Every object was numbered when it was made. -/
theorem numbered_next {map : AnnotatedMap}
    (numbered : ∀ object ∈ map.picks, object.id < map.allocated) {event : AnnotationEvent}
    (enabled : (annotatedMap unicode).enabled map event) :
    ∀ object ∈ ((annotatedMap unicode).next map event).picks,
      object.id < ((annotatedMap unicode).next map event).allocated := by
  obtain ⟨presenter, _, allocated, _⟩ := objects_next unicode map event
  intro object member
  rw [picks_congr presenter] at member
  rw [allocated]
  rcases picks_objectsAfter unicode enabled with ⟨_, _, fresh, grown⟩ | ⟨_, kept, same⟩
  · rw [fresh] at member
    have := id_of_mem_freshObjects member
    omega
  · rw [kept] at member
    rw [same]
    exact numbered object member

theorem annotations_objectsAfter {map : AnnotatedMap} (placed : map.annotations = map.picks)
    {event : AnnotationEvent} (enabled : (annotatedMap unicode).enabled map event) :
    (objectsAfter map event).annotations = (objectsAfter map event).picks := by
  have unchanged := picks_objectsAfter unicode enabled
  cases event with
  | screen event =>
      cases event with
      | snapshot snapshot => rfl
      | addNewPick => rfl
      | _ =>
          rcases unchanged with ⟨_, same, _⟩ | ⟨_, same, _⟩
          · cases same
          · rw [same]
            exact placed
  | _ => exact placed

/-! ## Where a block comes from -/

/-- The step schedules the block. -/
def Schedules (map : AnnotatedMap) (event : AnnotationEvent) (block : DelayedSelection) : Prop :=
  ((annotatedMap unicode).next map event).scheduled = map.scheduled ++ [block]

/-- A snapshot comes in. -/
def Replaced (events : List AnnotationEvent) : Prop :=
  ∃ snapshot, .screen (.snapshot snapshot) ∈ events

/-- The block was scheduled by a step of the past. Without a snapshot since then its
object is the first of its title, otherwise it is older than every object there is. -/
def Origin (past : List AnnotationEvent) (map : AnnotatedMap) (block : DelayedSelection) : Prop :=
  ∃ before event after, past = before ++ event :: after ∧
    Schedules unicode ((annotatedMap unicode).exec .initial before) event block ∧
    (¬ Replaced after → firstTitledObject unicode map.picks block.captured.pick.title =
      some block.captured) ∧
    (Replaced after → ∀ object ∈ map.picks, block.captured.id < object.id)

structure Tracked (past : List AnnotationEvent) (map : AnnotatedMap) : Prop where
  placed : map.annotations = map.picks
  numbered : ∀ object ∈ map.picks, object.id < map.allocated
  captured : ∀ block ∈ map.scheduled, block.captured.id < map.allocated
  origin : ∀ block ∈ map.scheduled, Origin unicode past map block

theorem firstTitledObject_eq_some {objects : List PickObject} {title : Option String}
    {found : PickObject} (first : firstTitledObject unicode objects title = some found) :
    found ∈ objects ∧ firstTitledObject unicode objects found.pick.title = some found := by
  have titled : unicode.optionalEqual found.pick.title title = true := by
    simpa using List.find?_some first
  refine ⟨List.mem_of_find?_eq_some first, ?_⟩
  rw [← first]
  unfold firstTitledObject
  congr 1
  funext candidate
  exact unicode.optionalEqual_congr titled candidate.pick.title

theorem replaced_append_singleton (events : List AnnotationEvent) (event : AnnotationEvent) :
    Replaced (events ++ [event]) ↔
      Replaced events ∨ ∃ snapshot, event = .screen (.snapshot snapshot) := by
  simp [Replaced, exists_or, eq_comm]

/-- A block that was there before keeps its origin, whatever the step does to the list. -/
theorem Origin.next {past : List AnnotationEvent} {map : AnnotatedMap} {block : DelayedSelection}
    (origin : Origin unicode past map block) (older : block.captured.id < map.allocated)
    {event : AnnotationEvent} (enabled : (annotatedMap unicode).enabled map event) :
    Origin unicode (past ++ [event]) ((annotatedMap unicode).next map event) block := by
  obtain ⟨before, scheduling, after, split, schedules, current, stale⟩ := origin
  have picks : ((annotatedMap unicode).next map event).picks = (objectsAfter map event).picks :=
    picks_congr (objects_next unicode map event).1
  refine ⟨before, scheduling, after ++ [event], by simp [split], schedules, ?_, ?_⟩ <;>
    rw [replaced_append_singleton, picks]
  · intro unreplaced
    rw [not_or] at unreplaced
    rcases picks_objectsAfter unicode enabled with ⟨snapshot, same, _⟩ | ⟨_, kept, _⟩
    · exact absurd ⟨snapshot, same⟩ unreplaced.2
    · rw [kept]
      exact current unreplaced.1
  · intro replaced object member
    rcases picks_objectsAfter unicode enabled with ⟨snapshot, _, fresh, _⟩ | ⟨other, kept, _⟩
    · rw [fresh] at member
      have := id_of_mem_freshObjects member
      omega
    · rw [kept] at member
      rcases replaced with earlier | ⟨snapshot, same⟩
      · exact stale earlier object member
      · exact absurd same (other snapshot)

theorem Tracked.next {past : List AnnotationEvent}
    (tracked : Tracked unicode past ((annotatedMap unicode).exec .initial past))
    {event : AnnotationEvent}
    (enabled : (annotatedMap unicode).enabled ((annotatedMap unicode).exec .initial past) event) :
    Tracked unicode (past ++ [event])
      ((annotatedMap unicode).next ((annotatedMap unicode).exec .initial past) event) := by
  generalize start : (annotatedMap unicode).exec .initial past = map at tracked enabled ⊢
  obtain ⟨presenter, annotations, _, scheduled⟩ := objects_next unicode map event
  have picks := picks_congr presenter
  have numbered := numbered_next unicode tracked.numbered enabled
  have grows := allocated_le_next unicode enabled
  have old : ∀ block ∈ map.scheduled,
      block.captured.id < ((annotatedMap unicode).next map event).allocated ∧
        Origin unicode (past ++ [event]) ((annotatedMap unicode).next map event) block := by
    intro block member
    have older := tracked.captured block member
    exact ⟨by omega, (tracked.origin block member).next unicode older enabled⟩
  have each : ∀ block ∈ ((annotatedMap unicode).next map event).scheduled,
      block.captured.id < ((annotatedMap unicode).next map event).allocated ∧
        Origin unicode (past ++ [event]) ((annotatedMap unicode).next map event) block := by
    intro block member
    rcases scheduled with kept | ⟨title, found, first, more⟩
    · exact old block (kept block member)
    · have schedules : Schedules unicode map event ⟨map.opened, found⟩ := more
      rw [more] at member
      rcases List.mem_append.mp member with earlier | new
      · exact old block earlier
      · -- the step has just scheduled it, from the list as it is now
        obtain ⟨listed, current⟩ := firstTitledObject_eq_some unicode first
        have same : block = ⟨map.opened, found⟩ := List.mem_singleton.mp new
        subst same start
        refine ⟨numbered found listed, past, event, [], rfl, schedules, fun _ => current, ?_⟩
        rintro ⟨snapshot, none⟩
        cases none
  refine ⟨?_, numbered, fun block member => (each block member).1,
    fun block member => (each block member).2⟩
  rw [annotations, picks]
  exact annotations_objectsAfter unicode tracked.placed enabled

theorem tracked_exec {events : List AnnotationEvent}
    (legal : (annotatedMap unicode).Legal .initial events) :
    Tracked unicode events ((annotatedMap unicode).exec .initial events) := by
  have base : Tracked unicode [] .initial := by
    refine ⟨rfl, ?_, ?_, ?_⟩ <;> exact fun _ member => absurd member List.not_mem_nil
  exact EventSystem.Along.history _ base
    (fun past event tracked enabled => Tracked.next unicode tracked enabled) legal

/-! ## What a block selects -/

/-- On screen, and as long as its title is listed, the object is the current one of its
title and among the annotations on the map. -/
def SelectsCurrent (map : AnnotatedMap) (object : PickObject) : Prop :=
  map.onScreen = true →
    ∀ current, firstTitledObject unicode map.picks object.pick.title = some current →
      object = current ∧ object ∈ map.annotations

theorem emits_blockFired {map : AnnotatedMap} {id : Nat} {block : DelayedSelection}
    (found : map.block? id = some block) :
    (annotatedMap unicode).emits map (.blockFired id) = [.annotationSelected block.captured] := by
  simp [annotatedMap, AnnotatedMap.handle, AnnotatedMap.fire, found]

/-- Of every block of every run: it selects the current annotation for its title exactly
if no snapshot has come in since it was scheduled, or it fires off screen or when its
title is no longer listed. -/
theorem delayed_selection_iff {past : List AnnotationEvent} {id : Nat}
    (legal : (annotatedMap unicode).Legal .initial (past ++ [.blockFired id])) :
    ∃ before event after block, past = before ++ event :: after ∧
      Schedules unicode ((annotatedMap unicode).exec .initial before) event block ∧ block.id = id ∧
      (annotatedMap unicode).emits ((annotatedMap unicode).exec .initial past) (.blockFired id) =
        [.annotationSelected block.captured] ∧
      (SelectsCurrent unicode ((annotatedMap unicode).exec .initial past) block.captured ↔
        (((annotatedMap unicode).exec .initial past).onScreen = true →
          (firstTitledObject unicode ((annotatedMap unicode).exec .initial past).picks
            block.captured.pick.title).isSome → ¬ Replaced after)) := by
  have tracked := tracked_exec unicode (EventSystem.Along.before _ legal)
  have pending : (((annotatedMap unicode).exec .initial past).block? id).isSome :=
    EventSystem.Along.at _ legal
  obtain ⟨block, found⟩ := Option.isSome_iff_exists.mp pending
  have scheduled := List.mem_of_find?_eq_some found
  have number : block.id = id := by simpa using List.find?_some found
  obtain ⟨before, event, after, split, schedules, current, stale⟩ := tracked.origin block scheduled
  refine ⟨before, event, after, block, split, schedules, number,
    emits_blockFired unicode found, ?_⟩
  constructor
  · intro selects shown listed replaced
    obtain ⟨object, first⟩ := Option.isSome_iff_exists.mp listed
    have older := stale replaced object (List.mem_of_find?_eq_some first)
    rw [(selects shown object first).1] at older
    omega
  · intro condition shown object first
    have unreplaced := condition shown (by rw [first]; rfl)
    have same : block.captured = object :=
      Option.some.inj ((current unreplaced).symm.trans first)
    refine ⟨same, ?_⟩
    rw [tracked.placed, same]
    exact List.mem_of_find?_eq_some first

/-- The map appears, centres on the selected row and schedules the selection of its pick. -/
def rowServed : List AnnotationEvent :=
  [.screen (.viewDidLoad (some sampleUid)), .screen (.snapshot coffeeSnapshot),
    .screen (.rowSelected coffeePick), .screen .viewDidAppear]

/-- The user adds a pick before the block fires: the objects stay, and the right one is
selected. -/
theorem delayed_selection_iff_after_add :
    let past := rowServed ++ [.screen .addNewPick]
    let map := (annotatedMap acuteData).exec .initial past
    (annotatedMap acuteData).emits map (.blockFired 0) = [.annotationSelected ⟨0, coffeePick⟩] ∧
      map.onScreen = true ∧ SelectsCurrent acuteData map ⟨0, coffeePick⟩ := by
  intro past map
  have legal : (annotatedMap acuteData).Legal .initial (past ++ [.blockFired 0]) := by
    decide +kernel
  have fired : (annotatedMap acuteData).emits map (.blockFired 0) =
      [.annotationSelected ⟨0, coffeePick⟩] := by
    decide +kernel
  refine ⟨fired, by decide +kernel, ?_⟩
  obtain ⟨before, event, after, block, split, schedules, _, emitted, selects⟩ :=
    delayed_selection_iff acuteData legal
  have captured : block.captured = ⟨0, coffeePick⟩ := by
    simpa using emitted.symm.trans fired
  rw [captured] at selects
  refine selects.mpr fun _ _ replaced => ?_
  obtain ⟨snapshot, member⟩ := replaced
  cases before with
  | nil =>
      -- nothing can be scheduled while the view loads
      obtain ⟨rfl, _⟩ := List.cons.inj split
      cases schedules
  | cons first rest =>
      have late : after <:+ past.drop 2 := by
        have whole : past.drop 2 = (rest ++ event :: after).drop 1 := by
          rw [split]
          rfl
        rw [whole]
        cases rest with
        | nil => exact List.suffix_rfl
        | cons second rest => exact ⟨rest ++ [event], by simp⟩
      have among := late.subset member
      simp [past, rowServed] at among

/-- A snapshot comes in before the block fires: what it selects is not on the map. -/
theorem delayed_selection_stale :
    let past := rowServed ++ [.screen (.snapshot coffeeSnapshot)]
    let map := (annotatedMap acuteData).exec .initial past
    (annotatedMap acuteData).Legal .initial (past ++ [.blockFired 0]) ∧ map.onScreen = true ∧
      map.annotations = [⟨1, coffeePick⟩] ∧
      (annotatedMap acuteData).emits map (.blockFired 0) = [.annotationSelected ⟨0, coffeePick⟩] ∧
      ¬ SelectsCurrent acuteData map ⟨0, coffeePick⟩ := by
  intro past map
  have shown : map.onScreen = true := by decide +kernel
  have current : firstTitledObject acuteData map.picks coffeePick.title =
      some ⟨1, coffeePick⟩ := by
    decide +kernel
  refine ⟨by decide +kernel, shown, by decide +kernel, by decide +kernel, fun selects => ?_⟩
  have same := (selects shown _ current).1
  cases same

end PicksOnMap.Guarantees
