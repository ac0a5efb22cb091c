import PicksOnMap.Source.Account
import PicksOnMap.Source.MapScreen

/-!
# When the map centres itself

Source pin: MapViewController.swift:44-97. `centering_cases` says once what a step
can do: it prepares the request and the list, and then serves the request or leaves
it. Two invariants relate the request to the history: a pending pick is the row
selected last since the map disappeared (`Requested`), and, as long as no row is
served before the map appears, that row's request is pending or was served on screen
(`Kept`). The number of centrings is bounded by a budget of one for a pending
request.
-/
namespace PicksOnMap.Guarantees

open Source Support

variable (unicode : UnicodeData)

/-- The row selected last, unless the map has disappeared since. -/
def selection (past : List MapEvent) : Option Pick :=
  past.foldl (fun selected event =>
    match event with
    | .rowSelected pick => some pick
    | .viewDidDisappear => none
    | _ => selected) none

theorem selection_append_singleton (past : List MapEvent) (event : MapEvent) :
    selection (past ++ [event]) =
      match event with
      | .rowSelected pick => some pick
      | .viewDidDisappear => none
      | _ => selection past := by
  simp only [selection, List.foldl_append, List.foldl_cons, List.foldl_nil]

/-- What an event does before the map tries to centre. -/
def prepared (map : MapViewController) : MapEvent → MapViewController
  | .rowSelected pick => { map with needCenter := .toPick pick }
  | .viewDidLoad currentUser =>
      { map with presenter := some (PicksPresenter.create currentUser) }
  | .viewDidAppear =>
      { map with
        needCenter := match map.needCenter with
          | .none => .toCurrentLocation
          | pending => pending
        onScreen := true }
  | .viewDidDisappear => { map with needCenter := .none, onScreen := false }
  | .snapshot snapshot =>
      { map with presenter := map.presenter.map (·.handleSnapshot snapshot) }
  | .addNewPick | .didUpdate _ => map

/-- The events that neither make a request nor change what is on screen. -/
def Quiet : MapEvent → Prop
  | .viewDidLoad _ | .snapshot _ | .addNewPick | .didUpdate _ => True
  | .rowSelected _ | .viewDidAppear | .viewDidDisappear => False

theorem Quiet.prepared_same {event : MapEvent} (quiet : Quiet event) (map : MapViewController) :
    (prepared map event).needCenter = map.needCenter ∧
      (prepared map event).onScreen = map.onScreen := by
  cases event <;> first | exact ⟨rfl, rfl⟩ | cases quiet

theorem Quiet.selection_same {event : MapEvent} (quiet : Quiet event) (past : List MapEvent) :
    selection (past ++ [event]) = selection past := by
  rw [selection_append_singleton]
  cases event <;> first | rfl | cases quiet

/-- Data or a location arrives: the events on which a pending request may be served
without the map having appeared. -/
def Delivers : MapEvent → Prop
  | .snapshot _ | .addNewPick | .didUpdate _ => True
  | .rowSelected _ | .viewDidLoad _ | .viewDidAppear | .viewDidDisappear => False

/-- The events that end in `centerIfNeeded`, with its argument. -/
def attempt : MapEvent → Option (Option CLLocationCoordinate2D)
  | .viewDidAppear | .snapshot _ | .addNewPick => some none
  | .didUpdate userLocation => some (some userLocation)
  | .rowSelected _ | .viewDidLoad _ | .viewDidDisappear => none

theorem handle_eq (map : MapViewController) (event : MapEvent) :
    map.handle unicode event =
      match attempt event with
      | none => (prepared map event, [])
      | some currentLocation => (prepared map event).centerIfNeeded unicode currentLocation := by
  cases event <;> rfl

theorem Delivers.quiet {event : MapEvent} (delivers : Delivers event) : Quiet event := by
  cases event <;> trivial

theorem centerIfNeeded_cases (map : MapViewController)
    (currentLocation : Option CLLocationCoordinate2D) :
    (∃ pick found, map.needCenter = .toPick pick ∧
      firstTitled unicode map.picks pick.title = some found ∧
      map.centerIfNeeded unicode currentLocation =
        (map.served, [.onPick found])) ∨
    (∃ location, map.needCenter = .toCurrentLocation ∧ currentLocation = some location ∧
      map.centerIfNeeded unicode currentLocation =
        (map.served, [.onCurrentLocation location])) ∨
    (map.centerIfNeeded unicode currentLocation = (map, []) ∧
      (map.needCenter = .toCurrentLocation → currentLocation = none) ∧
      ∀ pick, map.needCenter = .toPick pick →
        firstTitled unicode map.picks pick.title = none) := by
  unfold MapViewController.centerIfNeeded
  cases pending : map.needCenter with
  | none => simp
  | toPick pick =>
      cases first : firstTitled unicode map.picks pick.title with
      | none => simp [first]
      | some found => simp [first]
  | toCurrentLocation => cases currentLocation <;> simp

/-- A step prepares the request and the list, and then serves a pick of the list,
serves the user's location, or leaves the request as it is. -/
theorem centering_cases (map : MapViewController) (event : MapEvent) :
    (∃ pick found, (prepared map event).needCenter = .toPick pick ∧
      (Delivers event ∨ event = .viewDidAppear) ∧
      firstTitled unicode (prepared map event).picks pick.title = some found ∧
      (mapScreen unicode).next map event = (prepared map event).served ∧
      (mapScreen unicode).emits map event = [.onPick found]) ∨
    (∃ location, map.needCenter = .toCurrentLocation ∧ event = .didUpdate location ∧
      (mapScreen unicode).next map event = (prepared map event).served ∧
      (mapScreen unicode).emits map event = [.onCurrentLocation location]) ∨
    ((mapScreen unicode).next map event = prepared map event ∧
      (mapScreen unicode).emits map event = [] ∧
      (map.needCenter = .toCurrentLocation → ∀ location, event ≠ .didUpdate location) ∧
      (Delivers event → ∀ pick, map.needCenter = .toPick pick →
        firstTitled unicode (prepared map event).picks pick.title = none)) := by
  simp only [mapScreen, handle_eq]
  cases tried : attempt event with
  | none =>
      refine .inr (.inr ⟨rfl, rfl, fun _ location same => ?_, fun delivers => ?_⟩)
      · subst same
        cases tried
      · cases event <;> cases tried <;> cases delivers
  | some currentLocation =>
      have when : Delivers event ∨ event = .viewDidAppear := by
        cases event <;> first | exact .inl trivial | exact .inr rfl | cases tried
      rcases centerIfNeeded_cases unicode (prepared map event) currentLocation with
        ⟨pick, found, pending, first, done⟩ | ⟨location, pending, here, done⟩ |
        ⟨done, noLocation, noPick⟩
      · exact .inl ⟨pick, found, pending, when, first, by simp [done], by simp [done]⟩
      · have same : event = .didUpdate location := by
          cases event <;> simp_all [attempt]
        subst same
        exact .inr (.inl ⟨location, pending, rfl, by simp [done], by simp [done]⟩)
      · refine .inr (.inr ⟨by simp [done], by simp [done], fun pending location same => ?_,
          fun delivers pick pending => noPick pick ?_⟩)
        · subst same
          cases tried
          cases noLocation pending
        · rw [(delivers.quiet.prepared_same map).1, pending]

/-! ## What the request says about the history -/

/-- A pending pick is the row selected last; the user's location is only asked for
on screen. -/
structure Requested (past : List MapEvent) (map : MapViewController) : Prop where
  pick : ∀ pick, map.needCenter = .toPick pick → selection past = some pick
  location : map.needCenter = .toCurrentLocation → map.onScreen = true

theorem Requested.next {past : List MapEvent} {map : MapViewController}
    (requested : Requested past map) (event : MapEvent) :
    Requested (past ++ [event]) ((mapScreen unicode).next map event) := by
  have quietly : Quiet event → Requested (past ++ [event]) (prepared map event) := by
    intro quiet
    obtain ⟨same, sameScreen⟩ := quiet.prepared_same map
    exact ⟨fun pick pending => (quiet.selection_same past).trans
        (requested.pick pick (same.symm.trans pending)),
      fun pending => sameScreen.trans (requested.location (same.symm.trans pending))⟩
  rcases centering_cases unicode map event with
    ⟨_, _, _, _, _, done, _⟩ | ⟨_, _, _, done, _⟩ | ⟨done, _, _⟩ <;> rw [done]
  · exact ⟨by simp, by simp⟩
  · exact ⟨by simp, by simp⟩
  · cases event with
    | rowSelected pick =>
        refine ⟨fun other pending => ?_, by simp [prepared]⟩
        cases pending
        rw [selection_append_singleton]
    | viewDidAppear =>
        refine ⟨fun pick pending => ?_, fun _ => rfl⟩
        rw [selection_append_singleton]
        refine requested.pick pick ?_
        cases before : map.needCenter <;> simp_all [prepared]
    | viewDidDisappear => exact ⟨by simp [prepared], by simp [prepared]⟩
    | _ => exact quietly trivial

/-- The step serves a selected row before the map has appeared. -/
def ServesEarly (map : MapViewController) (event : MapEvent) : Prop :=
  map.onScreen = false ∧ Delivers event ∧
    ∃ pick, map.needCenter = .toPick pick ∧
      ∃ candidate ∈ (prepared map event).picks,
        unicode.optionalEqual candidate.title pick.title = true

/-- The row selected last is still pending, or was served on screen. -/
def Kept (past : List MapEvent) (map : MapViewController) : Prop :=
  ∀ pick, selection past = some pick →
    map.needCenter = .toPick pick ∨ (map.needCenter = .none ∧ map.onScreen = true)

theorem Kept.next_quiet {past : List MapEvent} {map : MapViewController} (kept : Kept past map)
    {event : MapEvent} (quiet : Quiet event) (punctual : ¬ ServesEarly unicode map event) :
    Kept (past ++ [event]) ((mapScreen unicode).next map event) := by
  intro pick selected
  rw [quiet.selection_same] at selected
  obtain ⟨same, sameScreen⟩ := quiet.prepared_same map
  rcases centering_cases unicode map event with
    ⟨other, found, pending, delivers, first, done, _⟩ | ⟨_, pending, _, _⟩ | ⟨done, _, _⟩
  · rw [same] at pending
    rw [done, MapViewController.served_onScreen, sameScreen]
    refine .inr ⟨rfl, ?_⟩
    rcases kept pick selected with _ | ⟨idle, shown⟩
    · by_contra hidden
      refine punctual ⟨by simpa using hidden, ?_, other, pending, found,
        firstTitled_eq_some unicode first⟩
      rcases delivers with delivers | same
      · exact delivers
      · rw [same] at quiet
        exact quiet.elim
    · exact shown
  · rcases kept pick selected with toPick | ⟨idle, _⟩
    · rw [toPick] at pending
      cases pending
    · rw [idle] at pending
      cases pending
  · rw [done, same, sameScreen]
    exact kept pick selected

theorem Kept.next {past : List MapEvent} {map : MapViewController} (kept : Kept past map)
    {event : MapEvent} (enabled : (mapScreen unicode).enabled map event)
    (punctual : ¬ ServesEarly unicode map event) :
    Kept (past ++ [event]) ((mapScreen unicode).next map event) := by
  cases event with
  | rowSelected row =>
      intro pick selected
      rw [selection_append_singleton] at selected
      cases selected
      exact .inl rfl
  | viewDidDisappear =>
      intro pick selected
      rw [selection_append_singleton] at selected
      cases selected
  | viewDidAppear =>
      intro pick selected
      rw [selection_append_singleton] at selected
      have hidden : map.onScreen = false := enabled.2
      have pending : map.needCenter = .toPick pick := by
        rcases kept pick selected with pending | ⟨_, shown⟩
        · exact pending
        · rw [hidden] at shown
          cases shown
      rcases centering_cases unicode map .viewDidAppear with
        ⟨_, _, _, _, _, done, _⟩ | ⟨_, _, same, _⟩ | ⟨done, _, _⟩
      · rw [done]
        exact .inr ⟨rfl, rfl⟩
      · cases same
      · rw [done]
        exact .inl (by simp [prepared, pending])
  | _ => exact kept.next_quiet unicode trivial punctual

/-! ## Runs -/

theorem requested_exec (past : List MapEvent) :
    Requested past ((mapScreen unicode).exec .initial past) := by
  induction past using List.reverseRecOn with
  | nil => exact ⟨by simp [MapViewController.initial], by simp [MapViewController.initial]⟩
  | append_singleton past event ih =>
      simpa using ih.next unicode event

theorem kept_exec {past : List MapEvent}
    (legal : (mapScreen unicode).Legal .initial past)
    (punctual : (mapScreen unicode).Along (fun map event => ¬ ServesEarly unicode map event)
      .initial past) :
    Kept past ((mapScreen unicode).exec .initial past) := by
  refine EventSystem.Along.history _ ?_ (fun past event kept both => ?_) (legal.and _ punctual)
  · intro pick selected
    cases selected
  · exact kept.next unicode both.1 both.2

/-- Where a centring may go: to a listed pick of the selected title, and to the
user's location only if no row is selected. -/
def Follows (selected : Option Pick) (map : MapViewController) (event : MapEvent)
    (centring : Centring) : Prop :=
  match selected with
  | some pick => ∃ found ∈ ((mapScreen unicode).next map event).picks,
      unicode.optionalEqual found.title pick.title = true ∧ centring = .onPick found
  | none => ∃ location, event = .didUpdate location ∧ centring = .onCurrentLocation location

/-- What is served was pending before the step. -/
theorem pending_of_prepared {map : MapViewController} {event : MapEvent} {pick : Pick}
    (when : Delivers event ∨ event = .viewDidAppear)
    (pending : (prepared map event).needCenter = .toPick pick) :
    map.needCenter = .toPick pick := by
  rcases when with delivers | rfl
  · rwa [(delivers.quiet.prepared_same map).1] at pending
  · cases before : map.needCenter <;> simp_all [prepared]

theorem follows_of_step {past : List MapEvent} {map : MapViewController}
    (requested : Requested past map) (kept : Kept past map) {event : MapEvent}
    {centring : Centring} (emitted : centring ∈ (mapScreen unicode).emits map event) :
    Follows unicode (selection past) map event centring := by
  rcases centering_cases unicode map event with
    ⟨pick, found, pending, when, first, done, out⟩ | ⟨location, pending, same, _, out⟩ |
    ⟨_, out, _⟩ <;> rw [out] at emitted
  · rw [requested.pick pick (pending_of_prepared when pending)]
    obtain ⟨listed, titled⟩ := firstTitled_eq_some unicode first
    exact ⟨found, by rwa [done], titled, List.mem_singleton.mp emitted⟩
  · cases selected : selection past with
    | some pick =>
        rcases kept pick selected with toPick | ⟨idle, _⟩
        · rw [toPick] at pending
          cases pending
        · rw [idle] at pending
          cases pending
    | none => exact ⟨location, same, List.mem_singleton.mp emitted⟩
  · cases emitted

theorem next_onScreen (map : MapViewController) (event : MapEvent) :
    ((mapScreen unicode).next map event).onScreen = (prepared map event).onScreen := by
  rcases centering_cases unicode map event with
    ⟨_, _, _, _, _, done, _⟩ | ⟨_, _, _, done, _⟩ | ⟨done, _, _⟩ <;> rw [done]
  · rfl
  · rfl

/-- While the map stays on or off screen, a stretch of events is quiet if those that
are enabled there are. -/
theorem quiet_along {map : MapViewController} {events : List MapEvent}
    (legal : (mapScreen unicode).Legal map events)
    (only : ∀ (state : MapViewController), ∀ event ∈ events, state.onScreen = map.onScreen →
      state.Enabled event → Quiet event) :
    (mapScreen unicode).Along (fun _ event => Quiet event) map events := by
  induction events generalizing map with
  | nil => trivial
  | cons event rest ih =>
      have quiet : Quiet event := only map event List.mem_cons_self rfl legal.1
      refine ⟨quiet, ih legal.2 fun state later member same enabled => ?_⟩
      rw [next_onScreen, (quiet.prepared_same map).2] at same
      exact only state later (List.mem_cons_of_mem _ member) same enabled

theorem quiet_on_screen {map : MapViewController} {events : List MapEvent}
    (legal : (mapScreen unicode).Legal map events) (shown : map.onScreen = true)
    (stays : .viewDidDisappear ∉ events) :
    (mapScreen unicode).Along (fun _ event => Quiet event) map events := by
  refine quiet_along unicode legal fun state event member same enabled => ?_
  rw [shown] at same
  cases event with
  | rowSelected pick =>
      have hidden : state.onScreen = false := enabled
      simp [same] at hidden
  | viewDidAppear =>
      have hidden : state.onScreen = false := enabled.2
      simp [same] at hidden
  | viewDidDisappear => exact stays member
  | _ => trivial

theorem quiet_off_screen {map : MapViewController} {events : List MapEvent}
    (legal : (mapScreen unicode).Legal map events) (hidden : map.onScreen = false)
    (stays : .viewDidAppear ∉ events) (unselected : ∀ pick, .rowSelected pick ∉ events) :
    (mapScreen unicode).Along (fun _ event => Quiet event) map events := by
  refine quiet_along unicode legal fun state event member same enabled => ?_
  rw [hidden] at same
  cases event with
  | rowSelected pick => exact unselected pick member
  | viewDidAppear => exact stays member
  | viewDidDisappear =>
      have shown : state.onScreen = true := enabled
      simp [same] at shown
  | _ => trivial

/-! ## A row selection wins over the current location -/

/-- Once the map has appeared with no row selected, the next location is centred on,
whatever data arrives before it. -/
theorem asks_for_location {before quiet : List MapEvent}
    (legal : (mapScreen unicode).Legal .initial (before ++ .viewDidAppear :: quiet))
    (unselected : selection before = none) (stays : .viewDidDisappear ∉ quiet)
    (unlocated : ∀ location, .didUpdate location ∉ quiet) :
    ((mapScreen unicode).exec .initial (before ++ .viewDidAppear :: quiet)).needCenter =
      .toCurrentLocation := by
  let map := (mapScreen unicode).exec .initial before
  have requested := requested_exec unicode before
  have legalAfter := EventSystem.Along.after _ legal
  have appeared : ((mapScreen unicode).next map .viewDidAppear).needCenter = .toCurrentLocation ∧
      ((mapScreen unicode).next map .viewDidAppear).onScreen = true := by
    have noPick : ∀ pick, map.needCenter ≠ .toPick pick := by
      intro pick pending
      have selected := requested.pick pick pending
      rw [unselected] at selected
      cases selected
    rcases centering_cases unicode map .viewDidAppear with
      ⟨pick, _, pending, when, _⟩ | ⟨_, _, same, _⟩ | ⟨done, _, _⟩
    · exact absurd (pending_of_prepared when pending) (noPick pick)
    · cases same
    · rw [done]
      cases before : map.needCenter <;> simp_all [prepared]
  have silent : ∀ event ∈ quiet, ∀ location, event ≠ .didUpdate location := by
    rintro _ member location rfl
    exact unlocated location member
  have asking := (quiet_on_screen unicode legalAfter.2 appeared.2 stays).and _
    (EventSystem.along_of_forall _ silent _)
  have kept : ∀ (state : MapViewController) (event : MapEvent),
      state.needCenter = .toCurrentLocation →
      (Quiet event ∧ ∀ location, event ≠ .didUpdate location) →
      ((mapScreen unicode).next state event).needCenter = .toCurrentLocation := by
    intro state event pending both
    rcases centering_cases unicode state event with
      ⟨_, _, toPick, when, _⟩ | ⟨location, _, same, _⟩ | ⟨done, _, _⟩
    · have := pending_of_prepared when toPick
      rw [pending] at this
      cases this
    · exact absurd same (both.2 location)
    · rw [done, (both.1.prepared_same state).1, pending]
  rw [EventSystem.exec_append, EventSystem.exec_cons]
  exact EventSystem.Along.invariant _ kept appeared.1 asking

/-- In every run that serves no selected row before the map appears, each centring
follows the row selected since the map last disappeared. Without one it goes to the
user's location, at the first update on screen. -/
theorem row_selection_wins {past : List MapEvent} {event : MapEvent}
    (legal : (mapScreen unicode).Legal .initial (past ++ [event]))
    (punctual : (mapScreen unicode).Along (fun map event => ¬ ServesEarly unicode map event)
      .initial (past ++ [event])) :
    (∀ centring ∈ (mapScreen unicode).emits ((mapScreen unicode).exec .initial past) event,
      Follows unicode (selection past) ((mapScreen unicode).exec .initial past) event centring) ∧
    ∀ before quiet location, past = before ++ .viewDidAppear :: quiet →
      selection before = none → .viewDidDisappear ∉ quiet →
      (∀ earlier, .didUpdate earlier ∉ quiet) → event = .didUpdate location →
      (mapScreen unicode).emits ((mapScreen unicode).exec .initial past) event =
        [.onCurrentLocation location] := by
  have requested := requested_exec unicode past
  have kept := kept_exec unicode (EventSystem.Along.before _ legal)
    (EventSystem.Along.before _ punctual)
  refine ⟨fun centring emitted => follows_of_step unicode requested kept emitted, ?_⟩
  rintro before quiet location rfl unselected stays unlocated rfl
  have pending := asks_for_location unicode (EventSystem.Along.before _ legal) unselected stays
    unlocated
  rcases centering_cases unicode ((mapScreen unicode).exec .initial
      (before ++ .viewDidAppear :: quiet)) (.didUpdate location) with
    ⟨pick, _, toPick, when, _⟩ | ⟨_, _, same, _, out⟩ | ⟨_, _, unasked, _⟩
  · have := pending_of_prepared when toPick
    rw [pending] at this
    cases this
  · cases same
    exact out
  · exact absurd rfl (unasked pending location)

/-- An account that lists "coffee" alone, as the map receives it. -/
def coffeeSnapshot : DataSnapshot :=
  accountSnapshot sampleUid (additionsTree sampleUid [("coffee", sampleCoordinate)])

def coffeePick : Pick := listedPick sampleUid ⟨"coffee", by decide⟩ "coffee" sampleCoordinate

/-- The row is served when the map appears, as it should be. -/
theorem row_selection_wins_on_appearance :
    let past := [.viewDidLoad (some sampleUid), .snapshot coffeeSnapshot, .rowSelected coffeePick]
    let map := (mapScreen acuteData).exec .initial past
    (mapScreen acuteData).emits map .viewDidAppear = [.onPick coffeePick] ∧
      ∀ centring ∈ (mapScreen acuteData).emits map .viewDidAppear,
        Follows acuteData (selection past) map .viewDidAppear centring := by
  intro past map
  have legal : (mapScreen acuteData).Legal .initial (past ++ [.viewDidAppear]) := by
    decide +kernel
  refine ⟨by decide +kernel, (row_selection_wins acuteData legal ⟨?_, ?_, ?_, ?_, trivial⟩).1⟩
  · exact fun early => early.2.1
  · intro early
    obtain ⟨_, _, _, pending, _⟩ := early
    cases pending
  · exact fun early => early.2.1
  · exact fun early => early.2.1

/-- Between the selection and the appearance a snapshot serves the row, and the map
then leaves it for the user's location. -/
theorem row_selection_loses :
    let past := [.viewDidLoad (some sampleUid), .rowSelected coffeePick,
      .snapshot coffeeSnapshot, .viewDidAppear]
    let map := (mapScreen acuteData).exec .initial past
    let event := MapEvent.didUpdate sampleCoordinate
    (mapScreen acuteData).Legal .initial (past ++ [event]) ∧ selection past = some coffeePick ∧
      .onCurrentLocation sampleCoordinate ∈ (mapScreen acuteData).emits map event ∧
      ¬ ∀ centring ∈ (mapScreen acuteData).emits map event,
        Follows acuteData (selection past) map event centring := by
  intro past map event
  have selected : selection past = some coffeePick := rfl
  have emitted : .onCurrentLocation sampleCoordinate ∈ (mapScreen acuteData).emits map event := by
    decide +kernel
  refine ⟨by decide +kernel, selected, emitted, fun all => ?_⟩
  obtain ⟨_, _, _, same⟩ := all _ emitted
  cases same

theorem appears_idle {map : MapViewController} (idle : map.needCenter = .none)
    (location : CLLocationCoordinate2D) :
    (mapScreen unicode).outputs map [.viewDidAppear, .didUpdate location] =
      [.onCurrentLocation location] := by
  simp [EventSystem.outputs, mapScreen, MapViewController.handle,
    MapViewController.centerIfNeeded, idle]

/-- A row that is served early loses: the map goes on to the user's location. -/
theorem early_service_loses {map : MapViewController} {event : MapEvent}
    (early : ServesEarly unicode map event) (location : CLLocationCoordinate2D) :
    (mapScreen unicode).outputs ((mapScreen unicode).next map event)
      [.viewDidAppear, .didUpdate location] = [.onCurrentLocation location] := by
  obtain ⟨_, delivers, pick, pending, candidate, listed, titled⟩ := early
  have idle : ((mapScreen unicode).next map event).needCenter = .none := by
    rcases centering_cases unicode map event with
      ⟨_, _, _, _, _, done, _⟩ | ⟨_, _, _, done, _⟩ | ⟨_, _, _, unserved⟩
    · simp [done]
    · simp [done]
    · have missing := List.find?_eq_none.mp (unserved delivers pick pending) candidate listed
      exact absurd titled missing
  exact appears_idle unicode idle location

/-! ## The map does not jump by itself -/

/-- One centring is owed while a request is pending. -/
def budget (map : MapViewController) : Nat := if map.needCenter = .none then 0 else 1

theorem budget_le_one (map : MapViewController) : budget map ≤ 1 := by
  unfold budget
  split <;> omega

theorem budget_served (map : MapViewController) : budget map.served = 0 := by
  simp [budget]

theorem emits_add_budget_le_one (map : MapViewController) (event : MapEvent) :
    ((mapScreen unicode).emits map event).length +
      budget ((mapScreen unicode).next map event) ≤ 1 := by
  rcases centering_cases unicode map event with
    ⟨_, _, _, _, _, done, out⟩ | ⟨_, _, _, done, out⟩ | ⟨done, out, _⟩ <;> rw [done, out]
  · simp [budget_served]
  · simp [budget_served]
  · have := budget_le_one (prepared map event)
    simpa using this

theorem Quiet.emits_add_budget_le {event : MapEvent} (quiet : Quiet event)
    (map : MapViewController) :
    ((mapScreen unicode).emits map event).length +
      budget ((mapScreen unicode).next map event) ≤ budget map := by
  have same : budget (prepared map event) = budget map := by
    unfold budget
    rw [(quiet.prepared_same map).1]
  rcases centering_cases unicode map event with
    ⟨_, _, pending, _, _, done, out⟩ | ⟨_, pending, _, done, out⟩ | ⟨done, out, _⟩ <;>
    rw [done, out]
  · rw [budget_served, ← same]
    simp [budget, pending]
  · rw [budget_served]
    simp [budget, pending]
  · rw [same]
    simp

/-- A quiet stretch centres at most as often as a request was pending at its start. -/
theorem quiet_outputs_le {map : MapViewController} {events : List MapEvent}
    (quiet : (mapScreen unicode).Along (fun _ event => Quiet event) map events) :
    ((mapScreen unicode).outputs map events).length ≤ budget map :=
  EventSystem.outputs_length_le _ (fun state _ still => still.emits_add_budget_le unicode state)
    quiet

theorem outputs_cons_le_one {map : MapViewController} {event : MapEvent} {period : List MapEvent}
    (quiet : (mapScreen unicode).Along (fun _ event => Quiet event)
      ((mapScreen unicode).next map event) period) :
    ((mapScreen unicode).outputs map (event :: period)).length ≤ 1 := by
  have first := emits_add_budget_le_one unicode map event
  have later := quiet_outputs_le unicode quiet
  simp only [EventSystem.outputs, List.length_append]
  omega

theorem idle_off_screen {past : List MapEvent} {map : MapViewController}
    (requested : Requested past map) (hidden : map.onScreen = false)
    (unselected : selection past = none) (event : MapEvent) :
    (mapScreen unicode).emits map event = [] := by
  rcases centering_cases unicode map event with
    ⟨pick, _, pending, when, _⟩ | ⟨_, pending, _⟩ | ⟨_, out, _⟩
  · have selected := requested.pick pick (pending_of_prepared when pending)
    rw [unselected] at selected
    cases selected
  · have shown := requested.location pending
    rw [hidden] at shown
    cases shown
  · exact out

theorem rowSelected_mem_of_selection {past : List MapEvent} {pick : Pick}
    (selected : selection past = some pick) : .rowSelected pick ∈ past := by
  induction past using List.reverseRecOn with
  | nil => cases selected
  | append_singleton earlier event ih =>
      rw [selection_append_singleton] at selected
      cases event with
      | rowSelected other =>
          cases selected
          simp
      | viewDidDisappear => cases selected
      | _ => exact List.mem_append_left _ (ih selected)

theorem selection_after_disappear (before after : List MapEvent) :
    selection (before ++ .viewDidDisappear :: after) = selection after := by
  simp [selection, List.foldl_append]

/-- Off screen, only an appearance brings the map on screen. -/
theorem appears_of_onScreen {map : MapViewController} {events : List MapEvent}
    (hidden : map.onScreen = false)
    (shown : ((mapScreen unicode).exec map events).onScreen = true) : .viewDidAppear ∈ events := by
  induction events generalizing map with
  | nil =>
      rw [EventSystem.exec_nil, hidden] at shown
      cases shown
  | cons event rest ih =>
      rw [EventSystem.exec_cons] at shown
      cases event with
      | viewDidAppear => exact List.mem_cons_self
      | viewDidDisappear => exact List.mem_cons_of_mem _ (ih rfl shown)
      | _ =>
          refine List.mem_cons_of_mem _ (ih ?_ shown)
          rw [next_onScreen]
          exact hidden

/-- The request that a centring serves was made during `events`. -/
def MadeDuring (events : List MapEvent) : Centring → Prop
  | .onPick found => ∃ pick, .rowSelected pick ∈ events ∧
      unicode.optionalEqual found.title pick.title = true
  | .onCurrentLocation _ => .viewDidAppear ∈ events

theorem madeDuring_of_step {before after : List MapEvent} {event : MapEvent} {centring : Centring}
    (emitted : centring ∈ (mapScreen unicode).emits
      ((mapScreen unicode).exec .initial (before ++ .viewDidDisappear :: after)) event) :
    MadeDuring unicode after centring := by
  have requested := requested_exec unicode (before ++ .viewDidDisappear :: after)
  rcases centering_cases unicode _ event with
    ⟨pick, found, pending, when, first, _, out⟩ | ⟨_, pending, _, _, out⟩ | ⟨_, out, _⟩ <;>
    rw [out] at emitted
  · have selected := requested.pick pick (pending_of_prepared when pending)
    rw [selection_after_disappear] at selected
    cases List.mem_singleton.mp emitted
    exact ⟨pick, rowSelected_mem_of_selection selected, (firstTitled_eq_some unicode first).2⟩
  · have shown := requested.location pending
    rw [EventSystem.exec_append, EventSystem.exec_cons] at shown
    cases List.mem_singleton.mp emitted
    exact appears_of_onScreen unicode rfl shown
  · cases emitted

/-- On screen the map centres itself at most once between an appearance and the next
disappearance. Off screen it does so at most once for each row selected, and not
before one is. A request still pending when the map disappears is never served. -/
theorem map_does_not_jump :
    (∀ before period, (mapScreen unicode).Legal .initial (before ++ .viewDidAppear :: period) →
      .viewDidDisappear ∉ period →
      ((mapScreen unicode).outputs ((mapScreen unicode).exec .initial before)
        (.viewDidAppear :: period)).length ≤ 1) ∧
    (∀ before pick period,
      (mapScreen unicode).Legal .initial (before ++ .rowSelected pick :: period) →
      .viewDidAppear ∉ period → (∀ other, .rowSelected other ∉ period) →
      ((mapScreen unicode).outputs ((mapScreen unicode).exec .initial before)
        (.rowSelected pick :: period)).length ≤ 1) ∧
    (∀ before event, (mapScreen unicode).Legal .initial (before ++ [event]) →
      ((mapScreen unicode).exec .initial before).onScreen = false → selection before = none →
      (mapScreen unicode).emits ((mapScreen unicode).exec .initial before) event = []) ∧
    ∀ before after event,
      (mapScreen unicode).Legal .initial (before ++ .viewDidDisappear :: (after ++ [event])) →
      ∀ centring ∈ (mapScreen unicode).emits
        ((mapScreen unicode).exec .initial (before ++ .viewDidDisappear :: after)) event,
        MadeDuring unicode after centring := by
  refine ⟨fun before period legal stays => ?_, fun before pick period legal stays unselected => ?_,
    fun before event _ hidden unselected => ?_, fun before after event _ centring emitted => ?_⟩
  · have legalAfter := EventSystem.Along.after _ legal
    refine outputs_cons_le_one unicode (quiet_on_screen unicode legalAfter.2 ?_ stays)
    rw [next_onScreen]
    rfl
  · have legalAfter := EventSystem.Along.after _ legal
    have hidden : ((mapScreen unicode).exec .initial before).onScreen = false := legalAfter.1
    exact outputs_cons_le_one unicode
      (quiet_off_screen unicode legalAfter.2 hidden stays unselected)
  · exact idle_off_screen unicode (requested_exec unicode before) hidden unselected event
  · exact madeDuring_of_step unicode emitted

/-- The row is centred on at the appearance, and nothing that follows moves the map. -/
theorem map_does_not_jump_after_row :
    let before := [.viewDidLoad (some sampleUid), .snapshot coffeeSnapshot, .rowSelected coffeePick]
    ((mapScreen acuteData).outputs ((mapScreen acuteData).exec .initial before)
      [.viewDidAppear, .didUpdate sampleCoordinate, .snapshot coffeeSnapshot]).length ≤ 1 := by
  intro before
  have legal : (mapScreen acuteData).Legal .initial
      (before ++ [.viewDidAppear, .didUpdate sampleCoordinate, .snapshot coffeeSnapshot]) := by
    decide +kernel
  exact (map_does_not_jump acuteData).1 before _ legal (by simp)

end PicksOnMap.Guarantees
