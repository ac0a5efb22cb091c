import PicksOnMap.Guarantees.DelayedSelection

/-!
# Tap recognisers on the views of picks

Source pin: as in `MapAnnotations`. `views_next` says once what a step does to the views
that were made so far. A view carries one recogniser for each time it was returned
(`recognizers_eq_returns`), since taking it off the map leaves them installed. So a
returned view has exactly one if and only if MapKit handed out a new view
(`recognizers_of_request`), and all of them have one exactly in the runs in which no view
is used again (`one_tap_recognizer_iff`).
-/
namespace PicksOnMap.Guarantees

open Source Support

variable (unicode : UnicodeData)

/-- How many tap recognisers a view has; none before it is made. -/
def recognizers (map : AnnotatedMap) (index : Nat) : Nat :=
  ((map.views[index]?).map MKAnnotationView.tapRecognizers).getD 0

def returned? : MapAction → Option Nat
  | .returned view => some view
  | _ => none

/-- How often a view was returned for a pick. -/
def returns (events : List AnnotationEvent) (index : Nat) : Nat :=
  (((annotatedMap unicode).outputs .initial events).filterMap returned?).count index

/-! ## What a step does to the views -/

theorem centerIfNeeded_views (map : AnnotatedMap)
    (currentLocation : Option CLLocationCoordinate2D) :
    (map.centerIfNeeded unicode currentLocation).1.views = map.views ∧
      (map.centerIfNeeded unicode currentLocation).2.filterMap returned? = [] := by
  unfold AnnotatedMap.centerIfNeeded
  cases map.needCenter with
  | none => exact ⟨rfl, rfl⟩
  | toPick pick =>
      simp only
      cases firstTitledObject unicode map.picks pick.title <;> exact ⟨rfl, rfl⟩
  | toCurrentLocation => cases currentLocation <;> exact ⟨rfl, rfl⟩

/-- A step makes a view, uses one again, or leaves every view as it is but for the
annotations having been removed; and it returns the view it made or used again. -/
inductive ViewStep (map : AnnotatedMap) :
    AnnotationEvent → List MKAnnotationView → List Nat → Prop
  | kept {event : AnnotationEvent} (other : ∀ pick dequeued, event ≠ .viewFor (some pick) dequeued) :
      ViewStep map event map.views []
  | removed {event : AnnotationEvent}
      (other : ∀ pick dequeued, event ≠ .viewFor (some pick) dequeued) :
      ViewStep map event (map.views.map MKAnnotationView.remove) []
  | made {pick : PickObject} :
      ViewStep map (.viewFor (some pick) none) (map.views ++ [⟨pick, false, 1⟩]) [map.views.length]
  | reused {pick : PickObject} {index : Nat} {view : MKAnnotationView}
      (held : map.views[index]? = some view) :
      ViewStep map (.viewFor (some pick) (some index))
        (map.views.set index ⟨pick, false, view.tapRecognizers + 1⟩) [index]

/-- An event of the screen makes no view and returns none. -/
theorem views_screen (map : AnnotatedMap) (event : MapEvent) :
    (((annotatedMap unicode).next map (.screen event)).views = map.views ∨
        ((annotatedMap unicode).next map (.screen event)).views =
          map.views.map MKAnnotationView.remove) ∧
      ((annotatedMap unicode).emits map (.screen event)).filterMap returned? = [] := by
  have prepares : (preparedObjects map event).views = map.views ∨
      (preparedObjects map event).views = map.views.map MKAnnotationView.remove := by
    cases event <;> first | exact .inl rfl | exact .inr rfl
  simp only [annotatedMap, AnnotatedMap.handle, handleScreen_eq]
  cases attempt event with
  | none => exact ⟨prepares, rfl⟩
  | some currentLocation =>
      obtain ⟨views, silent⟩ :=
        centerIfNeeded_views unicode (preparedObjects map event) currentLocation
      simp only [views, silent]
      exact ⟨prepares, trivial⟩

theorem views_next {map : AnnotatedMap} {event : AnnotationEvent}
    (enabled : (annotatedMap unicode).enabled map event) :
    ViewStep map event ((annotatedMap unicode).next map event).views
      (((annotatedMap unicode).emits map event).filterMap returned?) := by
  cases event with
  | screen event =>
      obtain ⟨same | removed, silent⟩ := views_screen unicode map event
      · rw [same, silent]
        exact .kept (by simp)
      · rw [removed, silent]
        exact .removed (by simp)
  | blockFired id =>
      simp only [annotatedMap, AnnotatedMap.handle, AnnotatedMap.fire]
      cases map.block? id <;> exact .kept (by simp)
  | viewFor requested dequeued =>
      cases requested with
      | none => exact .kept (by simp)
      | some pick =>
          cases dequeued with
          | none => exact .made
          | some index =>
              have free : map.Dequeueable index := enabled.2
              obtain ⟨view, held, _⟩ := Option.map_eq_some_iff.mp free
              have changed : map.views.modify index
                    (fun view => addTapGestureRecognizer (view.reuse pick)) =
                  map.views.set index ⟨pick, false, view.tapRecognizers + 1⟩ := by
                rw [List.modify_eq_set_getElem?, held]
                rfl
              simp only [annotatedMap, AnnotatedMap.handle, AnnotatedMap.viewFor, changed]
              exact .reused held
  | tapped index recognized selectedAnnotations =>
      have silent : ((annotatedMap unicode).emits map
          (.tapped index recognized selectedAnnotations)).filterMap returned? = [] := by
        refine List.filterMap_eq_nil_iff.mpr fun action member => ?_
        obtain ⟨object, rfl⟩ := deselectLater_of_mem_tap member
        rfl
      rw [silent]
      exact .kept (by simp)

theorem ViewStep.recognizers {map after : AnnotatedMap} {event : AnnotationEvent}
    {out : List Nat} (step : ViewStep map event after.views out) (index : Nat) :
    recognizers after index = recognizers map index + out.count index := by
  unfold Guarantees.recognizers
  generalize after.views = views at step
  cases step with
  | kept _ => rfl
  | removed _ =>
      rw [List.getElem?_map, List.count_nil]
      cases map.views[index]? <;> rfl
  | @made pick =>
      rw [List.count_singleton]
      by_cases last : map.views.length = index
      · subst last
        simp
      · by_cases inside : index < map.views.length
        · simp [List.getElem?_append_left inside, last]
        · have outside : map.views.length ≤ index := by omega
          have beyond : (map.views ++ [(⟨pick, false, 1⟩ : MKAnnotationView)]).length ≤ index := by
            rw [List.length_append, List.length_singleton]
            omega
          simp [List.getElem?_eq_none outside, List.getElem?_eq_none beyond, last]
  | @reused pick used view held =>
      rw [List.count_singleton]
      by_cases same : used = index
      · subst same
        obtain ⟨inside, placed⟩ := List.getElem?_eq_some_iff.mp held
        simp [inside, placed]
      · simp [same]

theorem returns_append_singleton (past : List AnnotationEvent) (event : AnnotationEvent)
    (index : Nat) :
    returns unicode (past ++ [event]) index = returns unicode past index +
      (((annotatedMap unicode).emits ((annotatedMap unicode).exec .initial past) event).filterMap
        returned?).count index := by
  simp [returns, EventSystem.outputs_append, EventSystem.outputs]

/-- A view carries one recogniser for each time it was returned. -/
theorem recognizers_eq_returns {events : List AnnotationEvent}
    (legal : (annotatedMap unicode).Legal .initial events) (index : Nat) :
    recognizers ((annotatedMap unicode).exec .initial events) index =
      returns unicode events index := by
  induction events using List.reverseRecOn with
  | nil => rfl
  | append_singleton past event ih =>
      have before := ih (EventSystem.Along.before _ legal)
      have now := (views_next unicode (EventSystem.Along.at _ legal)).recognizers index
      rw [EventSystem.exec_append, EventSystem.exec_cons, EventSystem.exec_nil, now, before,
        returns_append_singleton]

/-- What is true of the count of every view after a step, from what was true before. -/
theorem ViewStep.forall_views {map : AnnotatedMap} {event : AnnotationEvent}
    {views : List MKAnnotationView} {out : List Nat} (step : ViewStep map event views out)
    (holds : Nat → Prop) (before : ∀ view ∈ map.views, holds view.tapRecognizers) (one : holds 1)
    (reuse : ∀ pick index, event = .viewFor (some pick) (some index) →
      ∀ count, holds count → holds (count + 1)) :
    ∀ view ∈ views, holds view.tapRecognizers := by
  intro view member
  cases step with
  | kept _ => exact before view member
  | removed _ =>
      obtain ⟨old, listed, rfl⟩ := List.mem_map.mp member
      exact before old listed
  | made =>
      rcases List.mem_append.mp member with old | new
      · exact before view old
      · rw [List.mem_singleton.mp new]
        exact one
  | @reused pick index held inside =>
      rcases List.mem_or_eq_of_mem_set member with old | new
      · exact before view old
      · rw [new]
        exact reuse pick index rfl _ (before held (List.mem_of_getElem? inside))

theorem recognizers_pos {events : List AnnotationEvent}
    (legal : (annotatedMap unicode).Legal .initial events) :
    ∀ view ∈ ((annotatedMap unicode).exec .initial events).views, 0 < view.tapRecognizers := by
  have step : ∀ (map : AnnotatedMap) (event : AnnotationEvent),
      (∀ view ∈ map.views, 0 < view.tapRecognizers) → (annotatedMap unicode).enabled map event →
      ∀ view ∈ ((annotatedMap unicode).next map event).views, 0 < view.tapRecognizers := by
    intro map event before enabled
    exact (views_next unicode enabled).forall_views (0 < ·) before Nat.one_pos
      (fun _ _ _ count _ => Nat.succ_pos count)
  exact EventSystem.Along.invariant _ step (fun _ member => absurd member List.not_mem_nil) legal

/-- MapKit hands out a new view whenever it asks for the view of a pick. -/
def NewViews (events : List AnnotationEvent) : Prop :=
  ∀ pick dequeued, .viewFor (some pick) dequeued ∈ events → dequeued = none

theorem recognizers_eq_one {events : List AnnotationEvent}
    (legal : (annotatedMap unicode).Legal .initial events) (new : NewViews events) :
    ∀ view ∈ ((annotatedMap unicode).exec .initial events).views, view.tapRecognizers = 1 := by
  have step : ∀ (map : AnnotatedMap) (event : AnnotationEvent),
      (∀ view ∈ map.views, view.tapRecognizers = 1) →
      ((annotatedMap unicode).enabled map event ∧
        ∀ pick dequeued, event = .viewFor (some pick) dequeued → dequeued = none) →
      ∀ view ∈ ((annotatedMap unicode).next map event).views, view.tapRecognizers = 1 := by
    intro map event before both
    refine (views_next unicode both.1).forall_views (· = 1) before rfl fun pick index request => ?_
    cases both.2 pick (some index) request
  have each : ∀ event ∈ events, ∀ pick dequeued,
      event = AnnotationEvent.viewFor (some pick) dequeued → dequeued = none := by
    rintro _ member pick dequeued rfl
    exact new pick dequeued member
  exact EventSystem.Along.invariant _ step (fun _ member => absurd member List.not_mem_nil)
    (EventSystem.Along.and _ legal (EventSystem.along_of_forall _ each _))

/-! ## Requests and taps -/

theorem recognizers_of_held {map : AnnotatedMap} {index : Nat} {view : MKAnnotationView}
    (held : map.views[index]? = some view) : recognizers map index = view.tapRecognizers := by
  simp [recognizers, held]

/-- The view returned for a pick has one recogniser more than it was returned before, and
it was returned before exactly if it is not new. -/
theorem recognizers_of_request {past : List AnnotationEvent} {pick : PickObject}
    {dequeued : Option Nat}
    (legal : (annotatedMap unicode).Legal .initial (past ++ [.viewFor (some pick) dequeued])) :
    ∃ index,
      (annotatedMap unicode).emits ((annotatedMap unicode).exec .initial past)
        (.viewFor (some pick) dequeued) = [.returned index] ∧
      recognizers ((annotatedMap unicode).exec .initial (past ++ [.viewFor (some pick) dequeued]))
        index = returns unicode past index + 1 ∧
      (returns unicode past index = 0 ↔ dequeued = none) := by
  have legalPast := EventSystem.Along.before _ legal
  have enabled : (annotatedMap unicode).enabled _ (.viewFor (some pick) dequeued) :=
    EventSystem.Along.at _ legal
  have positive := recognizers_pos unicode legalPast
  have counted := recognizers_eq_returns unicode legalPast
  have grown : ∀ index, (annotatedMap unicode).emits ((annotatedMap unicode).exec .initial past)
        (.viewFor (some pick) dequeued) = [.returned index] →
      recognizers ((annotatedMap unicode).exec .initial (past ++ [.viewFor (some pick) dequeued]))
        index = returns unicode past index + 1 := by
    intro index emitted
    rw [recognizers_eq_returns unicode legal, returns_append_singleton, emitted]
    simp [returned?]
  cases dequeued with
  | none =>
      refine ⟨_, rfl, grown _ rfl, ?_⟩
      rw [← counted]
      simp [recognizers]
  | some index =>
      obtain ⟨view, held, _⟩ := Option.map_eq_some_iff.mp enabled.2
      have used := positive view (List.mem_of_getElem? held)
      refine ⟨index, rfl, grown index rfl, ?_⟩
      rw [← counted, recognizers_of_held held]
      simp only [reduceCtorEq, iff_false]
      omega

/-- Every view returned for a pick has one tap recogniser by then, and a tap on a view
whose pick is selected defers one deselection. -/
structure OneTapRecognizer (events : List AnnotationEvent) : Prop where
  returned : ∀ before requested dequeued after index,
    events = before ++ .viewFor requested dequeued :: after →
    .returned index ∈ (annotatedMap unicode).emits ((annotatedMap unicode).exec .initial before)
      (.viewFor requested dequeued) →
    recognizers ((annotatedMap unicode).exec .initial (before ++ [.viewFor requested dequeued]))
      index = 1
  taps : ∀ before index recognized selectedAnnotations after view,
    events = before ++ .tapped index recognized selectedAnnotations :: after →
    ((annotatedMap unicode).exec .initial before).views[index]? = some view →
    view.annotated ∈ selectedAnnotations →
    (annotatedMap unicode).emits ((annotatedMap unicode).exec .initial before)
      (.tapped index recognized selectedAnnotations) = [.deselectLater view.annotated]

theorem emits_tapped {map : AnnotatedMap} {index recognized : Nat}
    {selectedAnnotations : List PickObject} {view : MKAnnotationView}
    (held : map.views[index]? = some view) (selected : view.annotated ∈ selectedAnnotations) :
    (annotatedMap unicode).emits map (.tapped index recognized selectedAnnotations) =
      List.replicate recognized (.deselectLater view.annotated) := by
  have found : (selectedAnnotations.any fun selected => selected.id == view.annotated.id) = true :=
    List.any_eq_true.mpr ⟨view.annotated, selected, by simp⟩
  simp only [annotatedMap, AnnotatedMap.handle, AnnotatedMap.tap, held, found, ↓reduceIte]

/-- As long as no view is used again, one recogniser recognises a tap. -/
theorem NewViews.tap {past : List AnnotationEvent} (new : NewViews past) {index recognized : Nat}
    {selectedAnnotations : List PickObject}
    (legal : (annotatedMap unicode).Legal .initial
      (past ++ [.tapped index recognized selectedAnnotations]))
    {view : MKAnnotationView}
    (held : ((annotatedMap unicode).exec .initial past).views[index]? = some view)
    (selected : view.annotated ∈ selectedAnnotations) :
    (annotatedMap unicode).emits ((annotatedMap unicode).exec .initial past)
      (.tapped index recognized selectedAnnotations) = [.deselectLater view.annotated] := by
  have enabled : (annotatedMap unicode).enabled _ (.tapped index recognized selectedAnnotations) :=
    EventSystem.Along.at _ legal
  obtain ⟨some_recognize, at_most⟩ := enabled
  have one := recognizers_eq_one unicode (EventSystem.Along.before _ legal) new view
    (List.mem_of_getElem? held)
  simp only [held, Option.map_some, Option.getD_some, one] at at_most
  have once : recognized = 1 := by omega
  rw [emits_tapped unicode held selected, once]
  rfl

/-- In a run of any length, every pick view has exactly one tap recogniser if and only if
MapKit never hands out a view that was returned before. -/
theorem one_tap_recognizer_iff {events : List AnnotationEvent}
    (legal : (annotatedMap unicode).Legal .initial events) :
    OneTapRecognizer unicode events ↔ NewViews events := by
  constructor
  · intro one pick dequeued member
    obtain ⟨before, after, split⟩ := List.append_of_mem member
    subst split
    obtain ⟨index, emitted, counted, isNew⟩ :=
      recognizers_of_request unicode (EventSystem.Along.upTo _ legal)
    have count := one.returned before (some pick) dequeued after index rfl (by simp [emitted])
    exact isNew.mp (by omega)
  · intro new
    refine ⟨fun before requested dequeued after index split emitted => ?_,
      fun before index recognized selectedAnnotations after view split held selected => ?_⟩
    · cases requested with
      | none =>
          simp [annotatedMap, AnnotatedMap.handle, AnnotatedMap.viewFor] at emitted
      | some pick =>
          subst split
          obtain ⟨other, out, counted, isNew⟩ :=
            recognizers_of_request unicode (EventSystem.Along.upTo _ legal)
          have same : index = other := by simpa [out] using emitted
          have unreturned := isNew.mpr (new pick dequeued (by simp))
          rw [same, counted, unreturned]
    · subst split
      have earlier : NewViews before := fun pick dequeued member =>
        new pick dequeued (List.mem_append_left _ member)
      exact earlier.tap unicode (EventSystem.Along.upTo _ legal) held selected

/-- One view for one pick, tapped while the pick is selected. -/
theorem one_tap_recognizer_iff_new_view :
    OneTapRecognizer acuteData [.screen (.viewDidLoad (some sampleUid)),
      .screen (.snapshot coffeeSnapshot), .viewFor (some ⟨0, coffeePick⟩) none,
      .tapped 0 1 [⟨0, coffeePick⟩]] := by
  refine (one_tap_recognizer_iff acuteData (by decide +kernel)).mpr fun pick dequeued member => ?_
  simp only [List.mem_cons, reduceCtorEq, AnnotationEvent.viewFor.injEq, List.not_mem_nil, or_false,
    false_or] at member
  exact member.2

/-- A snapshot takes the annotation off the map, MapKit uses its view again for the new
object, and the view then has two recognisers. -/
theorem reused_view_has_two :
    let events := [.screen (.viewDidLoad (some sampleUid)), .screen (.snapshot coffeeSnapshot),
      .viewFor (some ⟨0, coffeePick⟩) none, .screen (.snapshot coffeeSnapshot),
      .viewFor (some ⟨1, coffeePick⟩) (some 0)]
    (annotatedMap acuteData).Legal .initial events ∧
      recognizers ((annotatedMap acuteData).exec .initial events) 0 = 2 ∧
      ¬ OneTapRecognizer acuteData events := by
  intro events
  have two : recognizers ((annotatedMap acuteData).exec .initial events) 0 = 2 := by decide +kernel
  refine ⟨by decide +kernel, two, fun one => ?_⟩
  have count := one.returned _ (some ⟨1, coffeePick⟩) (some 0) [] 0
    (List.dropLast_append_getLast (List.cons_ne_nil _ _)).symm (by decide +kernel)
  revert count
  decide +kernel

end PicksOnMap.Guarantees
