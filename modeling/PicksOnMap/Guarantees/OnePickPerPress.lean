import PicksOnMap.Source.MapLongPress

/-!
# One pick for one long press

Source pin: as in `MapLongPress`. `press_step` says once what an event does to the
prompt on screen and what it emits. From it follow, for every run: which callback a
prompt stems from (`presented_by`), that every pick added answers a prompt that was
confirmed (`confirmed_of_added`), and that the prompts of a gesture are answered once
each (`answers_balance`). What the code does not ensure is that the confirmed prompt is
the one the gesture began with, or that the gesture was not cancelled; given that, the
prompt a gesture begins with is a credit that pays for its one pick (`credit_le_one`).
-/
namespace PicksOnMap.Guarantees

open Source Support

/-- What an event does to the prompt on screen, and what it emits. -/
inductive PressStep (press : MapLongPress) :
    PressEvent → Option Prompt → List PressAction → Prop
  | presented {state : GestureState} {coordinate : CLLocationCoordinate2D} {prompt : Prompt}
      (free : press.prompt = none)
      (made : prompt = ⟨(press.recognized state).gestures, state, coordinate⟩) :
      PressStep press (.recognizer state coordinate) (some prompt) [.presented prompt]
  | ignored {event : PressEvent} (unanswered : press.prompt = none →
        event = .cancel ∨ ∃ text, event = .ok text) :
      PressStep press event press.prompt []
  | confirmed {text : String} {prompt : Prompt} (shown : press.prompt = some prompt) :
      PressStep press (.ok text) none [.addNewPick prompt.gesture text prompt.coordinate]
  | dismissed {prompt : Prompt} (shown : press.prompt = some prompt) :
      PressStep press .cancel none [.dismissed prompt]

theorem prompt_recognized (press : MapLongPress) (state : GestureState) :
    (press.recognized state).prompt = press.prompt := by
  cases state <;> rfl

theorem press_step (press : MapLongPress) (event : PressEvent) :
    PressStep press event (mapLongPress.next press event).prompt
      (mapLongPress.emits press event) := by
  cases event with
  | recognizer state coordinate =>
      simp only [mapLongPress, MapLongPress.handle, MapLongPress.handleLongPress,
        MapLongPress.present, prompt_recognized]
      cases shown : press.prompt with
      | none => exact .presented shown rfl
      | some prompt =>
          simp only [prompt_recognized]
          exact .ignored (by simp [shown])
  | ok text =>
      simp only [mapLongPress, MapLongPress.handle]
      cases shown : press.prompt with
      | none => exact .ignored (by simp)
      | some prompt => exact .confirmed shown
  | cancel =>
      simp only [mapLongPress, MapLongPress.handle]
      cases shown : press.prompt with
      | none => exact .ignored (by simp)
      | some prompt => exact .dismissed shown

theorem gestures_next (press : MapLongPress) (event : PressEvent) :
    (mapLongPress.next press event).gestures =
      match event with
      | .recognizer state _ => (press.recognized state).gestures
      | _ => press.gestures := by
  cases event with
  | recognizer state coordinate =>
      simp only [mapLongPress, MapLongPress.handle, MapLongPress.handleLongPress,
        MapLongPress.present]
      split <;> rfl
  | ok text =>
      simp only [mapLongPress, MapLongPress.handle]
      split <;> rfl
  | cancel =>
      simp only [mapLongPress, MapLongPress.handle]
      split <;> rfl

theorem gestures_le_recognized (press : MapLongPress) (state : GestureState) :
    press.gestures ≤ (press.recognized state).gestures := by
  cases state <;> simp [MapLongPress.recognized]

theorem gestures_le_next (press : MapLongPress) (event : PressEvent) :
    press.gestures ≤ (mapLongPress.next press event).gestures := by
  rw [gestures_next]
  cases event with
  | recognizer state coordinate => exact gestures_le_recognized press state
  | _ => exact Nat.le_refl _

/-! ## What happened in a run -/

/-- The state of a run of events from the start. -/
def pressed (events : List PressEvent) : MapLongPress := mapLongPress.exec .initial events

def actions (events : List PressEvent) : List PressAction := mapLongPress.outputs .initial events

/-- The recogniser called the handler for this gesture, in this state of it. -/
def Called (events : List PressEvent) (gesture : Nat) (state : GestureState)
    (coordinate : CLLocationCoordinate2D) : Prop :=
  ∃ before after, events = before ++ .recognizer state coordinate :: after ∧
    ((pressed before).recognized state).gestures = gesture

/-- The user confirmed this prompt. -/
def Confirmed (events : List PressEvent) (prompt : Prompt) : Prop :=
  ∃ before text after, events = before ++ .ok text :: after ∧ (pressed before).prompt = some prompt

def addedPick? (gesture : Nat) : PressAction → Option (String × CLLocationCoordinate2D)
  | .addNewPick owner name coordinate => if owner = gesture then some (name, coordinate) else none
  | _ => none

def presentedPrompt? (gesture : Nat) : PressAction → Option Prompt
  | .presented prompt => if prompt.gesture = gesture then some prompt else none
  | _ => none

def dismissedPrompt? (gesture : Nat) : PressAction → Option Prompt
  | .dismissed prompt => if prompt.gesture = gesture then some prompt else none
  | _ => none

/-- The arguments `addNewPick` was called with for a gesture. -/
def added (events : List PressEvent) (gesture : Nat) : List (String × CLLocationCoordinate2D) :=
  (actions events).filterMap (addedPick? gesture)

def presented (events : List PressEvent) (gesture : Nat) : List Prompt :=
  (actions events).filterMap (presentedPrompt? gesture)

def dismissed (events : List PressEvent) (gesture : Nat) : List Prompt :=
  (actions events).filterMap (dismissedPrompt? gesture)

/-- At most one pick for a gesture, where it began, and none for one that was cancelled
or whose only prompt was answered with Cancel. -/
structure OnePick (events : List PressEvent) (gesture : Nat) : Prop where
  once : (added events gesture).length ≤ 1
  place : ∀ pick ∈ added events gesture, Called events gesture .began pick.2
  cancelled : ∀ coordinate, Called events gesture .cancelled coordinate → added events gesture = []
  dismissed : ∀ prompt, presented events gesture = [prompt] →
    dismissed events gesture = [prompt] → added events gesture = []

theorem pressed_append_singleton (past : List PressEvent) (event : PressEvent) :
    pressed (past ++ [event]) = mapLongPress.next (pressed past) event := by
  simp [pressed]

theorem actions_append_singleton (past : List PressEvent) (event : PressEvent) :
    actions (past ++ [event]) = actions past ++ mapLongPress.emits (pressed past) event := by
  simp [actions, pressed, EventSystem.outputs_append, EventSystem.outputs]

theorem Called.append {events : List PressEvent} {gesture : Nat} {state : GestureState}
    {coordinate : CLLocationCoordinate2D} (called : Called events gesture state coordinate)
    (later : List PressEvent) : Called (events ++ later) gesture state coordinate := by
  obtain ⟨before, after, split, number⟩ := called
  exact ⟨before, after ++ later, by simp [split], number⟩

theorem Confirmed.append {events : List PressEvent} {prompt : Prompt}
    (confirmed : Confirmed events prompt) (later : List PressEvent) :
    Confirmed (events ++ later) prompt := by
  obtain ⟨before, text, after, split, shown⟩ := confirmed
  exact ⟨before, text, after ++ later, by simp [split], shown⟩

/-- Every prompt on screen was presented by the callback it names. -/
theorem presented_by {events : List PressEvent} {prompt : Prompt}
    (shown : (pressed events).prompt = some prompt) :
    Called events prompt.gesture prompt.presentedIn prompt.coordinate := by
  induction events using List.reverseRecOn with
  | nil => cases shown
  | append_singleton past event ih =>
      have step := press_step (pressed past) event
      rw [← pressed_append_singleton, shown] at step
      generalize result : some prompt = after at step
      generalize mapLongPress.emits (pressed past) event = out at step
      cases step with
      | presented free made =>
          cases result
          subst made
          exact ⟨past, [], rfl, rfl⟩
      | ignored _ => exact (ih result.symm).append [event]
      | confirmed _ => cases result
      | dismissed _ => cases result

/-- So was every prompt that the user confirmed. -/
theorem Confirmed.called {events : List PressEvent} {prompt : Prompt}
    (confirmed : Confirmed events prompt) :
    Called events prompt.gesture prompt.presentedIn prompt.coordinate := by
  obtain ⟨before, text, after, rfl, shown⟩ := confirmed
  exact (presented_by shown).append (.ok text :: after)

theorem added_append_singleton (past : List PressEvent) (event : PressEvent) (gesture : Nat) :
    added (past ++ [event]) gesture =
      added past gesture ++
        (mapLongPress.emits (pressed past) event).filterMap (addedPick? gesture) := by
  simp [added, actions_append_singleton]

/-- Every pick added answers a prompt that was confirmed. -/
theorem confirmed_of_added {events : List PressEvent} {gesture : Nat}
    {pick : String × CLLocationCoordinate2D} (member : pick ∈ added events gesture) :
    ∃ prompt, Confirmed events prompt ∧ prompt.gesture = gesture ∧
      prompt.coordinate = pick.2 := by
  induction events using List.reverseRecOn with
  | nil => cases member
  | append_singleton past event ih =>
      have earlier : pick ∈ added past gesture → ∃ prompt, Confirmed (past ++ [event]) prompt ∧
          prompt.gesture = gesture ∧ prompt.coordinate = pick.2 := by
        intro before
        obtain ⟨prompt, confirmed, same⟩ := ih before
        exact ⟨prompt, confirmed.append [event], same⟩
      rw [added_append_singleton, List.mem_append] at member
      have step := press_step (pressed past) event
      generalize mapLongPress.emits (pressed past) event = out at step member
      generalize (mapLongPress.next (pressed past) event).prompt = after at step
      cases step with
      | presented _ _ => exact earlier (by simpa [addedPick?] using member)
      | ignored _ => exact earlier (by simpa using member)
      | dismissed _ => exact earlier (by simpa [addedPick?] using member)
      | @confirmed text prompt shown =>
          rcases member with before | now
          · exact earlier before
          · by_cases own : prompt.gesture = gesture
            · have same : pick = (text, prompt.coordinate) := by
                simpa [addedPick?, own] using now
              exact ⟨prompt, ⟨past, text, [], rfl, shown⟩, own, by rw [same]⟩
            · simp [addedPick?, own] at now

/-- And every prompt that was confirmed added one. -/
theorem added_of_confirmed {events : List PressEvent} {prompt : Prompt}
    (confirmed : Confirmed events prompt) :
    ∃ name, (name, prompt.coordinate) ∈ added events prompt.gesture := by
  obtain ⟨before, text, after, rfl, shown⟩ := confirmed
  have now : mapLongPress.emits (pressed before) (.ok text) =
      [.addNewPick prompt.gesture text prompt.coordinate] := by
    simp [mapLongPress, MapLongPress.handle, shown]
  refine ⟨text, List.mem_filterMap.mpr ⟨.addNewPick prompt.gesture text prompt.coordinate, ?_, ?_⟩⟩
  · have split : before ++ .ok text :: after = (before ++ [.ok text]) ++ after := by simp
    unfold actions
    rw [split, EventSystem.outputs_append]
    refine List.mem_append_left _ ?_
    have upTo := actions_append_singleton before (.ok text)
    rw [now] at upTo
    unfold actions at upTo
    rw [upTo]
    simp
  · simp [addedPick?]

/-- One answer is owed while a prompt of the gesture is on screen. -/
def unanswered (gesture : Nat) : Option Prompt → Nat
  | some prompt => if prompt.gesture = gesture then 1 else 0
  | none => 0

theorem answers_step {press : MapLongPress} {event : PressEvent} {after : Option Prompt}
    {out : List PressAction} (step : PressStep press event after out) (gesture : Nat) :
    (out.filterMap (addedPick? gesture)).length + (out.filterMap (dismissedPrompt? gesture)).length +
        unanswered gesture after =
      (out.filterMap (presentedPrompt? gesture)).length + unanswered gesture press.prompt := by
  cases step with
  | @presented state coordinate prompt free made =>
      by_cases own : prompt.gesture = gesture <;>
        simp [List.filterMap_cons, addedPick?, dismissedPrompt?, presentedPrompt?, unanswered, free,
          own]
  | ignored _ => simp
  | @confirmed text prompt shown =>
      by_cases own : prompt.gesture = gesture <;>
        simp [List.filterMap_cons, addedPick?, dismissedPrompt?, presentedPrompt?, unanswered, shown,
          own]
  | @dismissed prompt shown =>
      by_cases own : prompt.gesture = gesture <;>
        simp [List.filterMap_cons, addedPick?, dismissedPrompt?, presentedPrompt?, unanswered, shown,
          own]

/-- Each prompt of a gesture is answered at most once: with a pick or with Cancel. -/
theorem answers_balance (events : List PressEvent) (gesture : Nat) :
    (added events gesture).length + (dismissed events gesture).length +
      unanswered gesture (pressed events).prompt = (presented events gesture).length := by
  induction events using List.reverseRecOn with
  | nil => rfl
  | append_singleton past event ih =>
      have now := answers_step (press_step (pressed past) event) gesture
      simp only [added, dismissed, presented, actions_append_singleton, List.filterMap_append,
        List.length_append, pressed_append_singleton] at ih ⊢
      omega

/-! ## What a confirmed prompt has to be -/

/-- Every prompt that the user confirms is the one its gesture began with, and the
gesture is not cancelled, neither before nor after. -/
def ConfirmedAtStart (events : List PressEvent) : Prop :=
  ∀ prompt, Confirmed events prompt → prompt.presentedIn = .began ∧
    ∀ coordinate, ¬ Called events prompt.gesture .cancelled coordinate

/-- The pick that the first prompt of a gesture may still add. -/
def credit (gesture : Nat) : Option Prompt → Nat
  | some prompt => if prompt.presentedIn = .began ∧ prompt.gesture = gesture then 1 else 0
  | none => 0

/-- The one pick a gesture is granted when it begins. -/
def allowance (gesture : Nat) (press : MapLongPress) : Nat :=
  if gesture ≤ press.gestures then 1 else 0

theorem allowance_le_one (gesture : Nat) (press : MapLongPress) : allowance gesture press ≤ 1 := by
  unfold allowance
  split <;> omega

theorem allowance_le_next (gesture : Nat) (press : MapLongPress) (event : PressEvent) :
    allowance gesture press ≤ allowance gesture (mapLongPress.next press event) := by
  have grows := gestures_le_next press event
  unfold allowance
  split <;> split <;> omega

/-- A pick is paid for by the credit of a prompt, and a credit by the beginning of its
gesture. -/
theorem credit_step {press : MapLongPress} {event : PressEvent} (gesture : Nat)
    (started : ∀ text prompt, event = .ok text → press.prompt = some prompt →
      prompt.presentedIn = .began) :
    ((mapLongPress.emits press event).filterMap (addedPick? gesture)).length +
        credit gesture (mapLongPress.next press event).prompt + allowance gesture press ≤
      credit gesture press.prompt + allowance gesture (mapLongPress.next press event) := by
  have grows := allowance_le_next gesture press event
  have counted := gestures_next press event
  have step := press_step press event
  generalize mapLongPress.emits press event = out at step ⊢
  generalize (mapLongPress.next press event).prompt = after at step ⊢
  cases step with
  | @presented state coordinate prompt free made =>
      subst made
      simp only at counted
      simp only [List.filterMap_cons, addedPick?, List.filterMap_nil, List.length_nil, credit, free]
      by_cases first : state = .began ∧ (press.recognized state).gestures = gesture
      · -- the gesture has just begun, so nothing was granted to it before
        have fresh : allowance gesture press = 0 := by
          obtain ⟨rfl, number⟩ := first
          unfold allowance
          rw [← number]
          simp [MapLongPress.recognized]
        have granted : allowance gesture
            (mapLongPress.next press (.recognizer state coordinate)) = 1 := by
          unfold allowance
          rw [counted, first.2]
          simp
        rw [if_pos first]
        omega
      · rw [if_neg first]
        omega
  | ignored _ =>
      simp only [List.filterMap_nil, List.length_nil]
      omega
  | @confirmed text prompt shown =>
      have first := started text prompt rfl shown
      by_cases own : prompt.gesture = gesture <;>
        simp [addedPick?, credit, shown, first, own] <;> omega
  | @dismissed prompt shown =>
      simp only [List.filterMap_cons, addedPick?, List.filterMap_nil, List.length_nil, credit]
      omega

/-- If only first prompts are confirmed, what a gesture has added and may still add is
within its allowance. -/
theorem added_add_credit_le {events : List PressEvent}
    (started : ∀ prompt, Confirmed events prompt → prompt.presentedIn = .began) (gesture : Nat) :
    (added events gesture).length + credit gesture (pressed events).prompt ≤
      allowance gesture (pressed events) := by
  induction events using List.reverseRecOn with
  | nil => exact Nat.zero_le _
  | append_singleton past event ih =>
      have before := ih fun prompt confirmed => started prompt (confirmed.append [event])
      have first : ∀ text prompt, event = .ok text → (pressed past).prompt = some prompt →
          prompt.presentedIn = .began := by
        intro text prompt answered shown
        subst answered
        exact started prompt ⟨past, text, [], rfl, shown⟩
      have now := credit_step gesture first
      rw [added_append_singleton, pressed_append_singleton, List.length_append]
      omega

/-- No callback of a gesture after the first reports the point where it began. -/
def FingerMoves (events : List PressEvent) : Prop :=
  ∀ gesture state coordinate start, state ≠ .began → Called events gesture state coordinate →
    Called events gesture .began start → coordinate ≠ start

/-- A gesture adds at most one pick, where it began, and none when it is cancelled, if
every prompt the user confirms is the one its gesture began with and the gesture is not
cancelled. Once the finger moves this is necessary as well. -/
theorem one_pick_per_press (events : List PressEvent) :
    (ConfirmedAtStart events → ∀ gesture, OnePick events gesture) ∧
      (FingerMoves events → (∀ gesture, OnePick events gesture) → ConfirmedAtStart events) := by
  constructor
  · intro atStart gesture
    have paid := added_add_credit_le (fun prompt confirmed => (atStart prompt confirmed).1) gesture
    have granted := allowance_le_one gesture (pressed events)
    refine ⟨by omega, fun pick member => ?_, fun coordinate called => ?_, fun prompt one gone => ?_⟩
    · obtain ⟨prompt, confirmed, own, same⟩ := confirmed_of_added member
      have called := confirmed.called
      rwa [(atStart prompt confirmed).1, own, same] at called
    · refine List.eq_nil_iff_forall_not_mem.mpr fun pick member => ?_
      obtain ⟨prompt, confirmed, own, _⟩ := confirmed_of_added member
      subst own
      exact (atStart prompt confirmed).2 coordinate called
    · have balance := answers_balance events gesture
      rw [one, gone] at balance
      simp only [List.length_singleton] at balance
      exact List.eq_nil_of_length_eq_zero (by omega)
  · intro moves each prompt confirmed
    obtain ⟨name, member⟩ := added_of_confirmed confirmed
    have start := (each prompt.gesture).place _ member
    refine ⟨?_, fun coordinate called => ?_⟩
    · by_contra later
      exact moves _ _ _ _ later confirmed.called start rfl
    · have unadded := (each prompt.gesture).cancelled coordinate called
      rw [unadded] at member
      cases member

/-- The first prompt is confirmed while the finger is down; the one that the end of the
press then opens is answered with Cancel. -/
theorem one_pick_per_press_second_prompt_cancelled :
    let here : CLLocationCoordinate2D := ⟨⟨0x4048CCCCCCCCCCCD⟩, ⟨0x402E000000000000⟩⟩
    let there : CLLocationCoordinate2D := ⟨⟨0x4049000000000000⟩, ⟨0x402E000000000000⟩⟩
    let events := [.recognizer .began here, .recognizer .changed there, .ok "coffee",
      .recognizer .ended there, .cancel]
    mapLongPress.Legal .initial events ∧ added events 1 = [("coffee", here)] ∧
      ∀ gesture, OnePick events gesture := by
  intro here there events
  refine ⟨by decide, by decide, (one_pick_per_press events).1 ?_⟩
  rintro prompt ⟨before, text, after, split, shown⟩
  have answers : mapLongPress.Along (fun press event =>
      ∀ name, event = .ok name → press.prompt = some ⟨1, .began, here⟩) .initial events := by
    refine ⟨?_, ?_, fun _ _ => rfl, ?_, ?_, trivial⟩ <;> exact fun _ answered => by cases answered
  have first := (EventSystem.along_iff_forall_split mapLongPress).mp answers before _ after split
    text rfl
  have same : prompt = ⟨1, .began, here⟩ := Option.some.inj (shown.symm.trans first)
  subst same
  refine ⟨rfl, fun coordinate called => ?_⟩
  obtain ⟨earlier, later, cancelling, _⟩ := called
  have member : PressEvent.recognizer .cancelled coordinate ∈ events := by
    rw [cancelling]
    simp
  simp [events] at member

/-- Two picks for one press, the second where the finger was lifted; and a pick for a
press that was cancelled. -/
theorem two_picks_per_press :
    let here : CLLocationCoordinate2D := ⟨⟨0x4048CCCCCCCCCCCD⟩, ⟨0x402E000000000000⟩⟩
    let there : CLLocationCoordinate2D := ⟨⟨0x4049000000000000⟩, ⟨0x402E000000000000⟩⟩
    let lifted := [.recognizer .began here, .ok "coffee", .recognizer .ended there, .ok "tea"]
    let interrupted := [.recognizer .began here, .recognizer .cancelled here, .ok "coffee"]
    (mapLongPress.Legal .initial lifted ∧
      added lifted 1 = [("coffee", here), ("tea", there)] ∧ ¬ OnePick lifted 1) ∧
    mapLongPress.Legal .initial interrupted ∧
      added interrupted 1 = [("coffee", here)] ∧ ¬ OnePick interrupted 1 := by
  intro here there lifted interrupted
  have two : added lifted 1 = [("coffee", here), ("tea", there)] := by decide
  have one : added interrupted 1 = [("coffee", here)] := by decide
  refine ⟨⟨by decide, two, fun pick => ?_⟩, by decide, one, fun pick => ?_⟩
  · have atMost := pick.once
    rw [two] at atMost
    simp at atMost
  · have cancelled : Called interrupted 1 .cancelled here :=
      ⟨[.recognizer .began here], [.ok "coffee"], rfl, rfl⟩
    have unadded := pick.cancelled here cancelled
    rw [one] at unadded
    cases unadded

end PicksOnMap.Guarantees
