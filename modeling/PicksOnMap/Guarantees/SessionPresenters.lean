import PicksOnMap.Source.LoginSession

/-!
# Whose data is on screen

Source pin: as in `LoginSession`. What matters to the question is the current user,
the listener, the tab bar on screen and the observers: the `Screen` of a state.
`screen_step` says once what an event can do to it, and three invariants follow: what
the listener has seen (`Heard`), whose presenters are on screen (`BoundToUser`), and
which observers are left over (`Registered`). A change of user under a tab bar is the
one thing that parts the screen from the user (`presenters_follow_user`,
`foreign_sign_in_stays`), and a dismissal the one thing that leaves an observer behind
(`observers_of_session_iff`).
-/
namespace PicksOnMap.Guarantees

open Source Support

structure Screen where
  currentUser : Option Key
  notifications : Nat
  previousUserID : Option (Option Key)
  bar : Option TabBar
  opened : Nat
  observers : List Observer

def screenOf (state : LoginSession) : Screen :=
  ⟨state.currentUser, state.notifications, state.previousUserID, state.tabBar?, state.opened,
    state.observers⟩

/-- What an event may make of the screen of `state`. -/
inductive ScreenStep (state : LoginSession) : LoginEvent → Screen → Prop
  | idle {event : LoginEvent} (other : event ≠ .listenerDelivered) :
      ScreenStep state event (screenOf state)
  | signedIn {index : Nat} {user : Key} (inFlight : state.signIns[index]? = some user) :
      ScreenStep state (.signInSucceeded index)
        ⟨some user, state.notifications + 1, state.previousUserID, state.tabBar?, state.opened,
          state.observers⟩
  | signedOut (present : state.currentUser ≠ none) :
      ScreenStep state (.logout false)
        ⟨none, state.notifications + 1, state.previousUserID, state.tabBar?, state.opened,
          state.observers⟩
  /-- The uid has not changed, or there is something on screen already. -/
  | ignored (unmoved : state.previousUserID = some state.currentUser ∨
        (state.currentUser ≠ none ∧ state.presented ≠ none)) :
      ScreenStep state .listenerDelivered
        ⟨state.currentUser, state.notifications - 1, some state.currentUser, state.tabBar?,
          state.opened, state.observers⟩
  | tabBarPresented {user : Key} {bar : TabBar} (present : state.currentUser = some user)
      (free : state.tabBar? = none)
      (fresh : bar = { session := state.opened, list := PicksPresenter.create (some user) }) :
      ScreenStep state .listenerDelivered
        ⟨state.currentUser, state.notifications - 1, some state.currentUser, some bar,
          state.opened + 1, state.observers ++ [bar.listObserver]⟩
  | dismissed (absent : state.currentUser = none) (changed : state.previousUserID ≠ some none) :
      ScreenStep state .listenerDelivered
        ⟨state.currentUser, state.notifications - 1, some state.currentUser, none, state.opened,
          state.observers⟩
  | mapOpened {bar : TabBar} (shown : state.tabBar? = some bar) (unloaded : bar.map = none) :
      ScreenStep state .mapTabOpened
        ⟨state.currentUser, state.notifications, state.previousUserID,
          some { bar with map := some (PicksPresenter.create state.currentUser) }, state.opened,
          state.observers ++ [⟨bar.session, .map, accountReference state.currentUser⟩]⟩

theorem screenOf_showAlert (state : LoginSession) : screenOf state.showAlert = screenOf state := by
  unfold LoginSession.showAlert
  cases shown : state.presented <;> simp [screenOf, LoginSession.tabBar?, shown]

theorem deliver_step (state : LoginSession) :
    ScreenStep state .listenerDelivered (screenOf state.deliver) := by
  simp only [LoginSession.deliver]
  split
  · next same => exact .ignored (.inl same)
  · next changed =>
      cases present : state.currentUser with
      | none =>
          rw [present] at changed
          simpa [LoginSession.dismiss, screenOf, LoginSession.tabBar?, present] using
            ScreenStep.dismissed present changed
      | some user =>
          cases shown : state.presented with
          | some presented =>
              have blocked : state.currentUser ≠ none ∧ state.presented ≠ none := by
                simp [present, shown]
              simpa [LoginSession.presentTabBar, screenOf, LoginSession.tabBar?, present,
                shown] using ScreenStep.ignored (.inr blocked)
          | none =>
              have free : state.tabBar? = none := by simp [LoginSession.tabBar?, shown]
              simpa [LoginSession.presentTabBar, screenOf, LoginSession.tabBar?, present,
                shown] using ScreenStep.tabBarPresented present free rfl

theorem openMapTab_step (state : LoginSession) :
    ScreenStep state .mapTabOpened (screenOf state.openMapTab) := by
  simp only [LoginSession.openMapTab]
  split
  · next bar shown =>
      have onScreen : state.tabBar? = some bar := by simp [LoginSession.tabBar?, shown]
      split
      · next unloaded => exact .mapOpened onScreen unloaded
      · exact .idle (by simp)
  · exact .idle (by simp)

theorem screen_step {state : LoginSession} {event : LoginEvent}
    (enabled : loginSystem.enabled state event) :
    ScreenStep state event (screenOf (loginSystem.next state event)) := by
  cases event with
  | didSignIn result =>
      cases result with
      | error =>
          change ScreenStep _ _ (screenOf state.showAlert)
          rw [screenOf_showAlert]
          exact .idle (by simp)
      | withoutAuthentication user => exact .idle (by simp)
      | authenticated user => exact .idle (by simp)
  | signInSucceeded index =>
      simp only [loginSystem, LoginSession.handle]
      cases inFlight : state.signIns[index]? with
      | none => exact .idle (by simp)
      | some user =>
          simpa [LoginSession.setCurrentUser, screenOf, LoginSession.tabBar?] using
            ScreenStep.signedIn inFlight
  | signInFailed index =>
      change ScreenStep _ _ (screenOf ({ state with
        signIns := state.signIns.eraseIdx index } : LoginSession).showAlert)
      rw [screenOf_showAlert]
      exact .idle (by simp)
  | logout signOutThrows =>
      cases signOutThrows with
      | true => exact .idle (by simp)
      | false =>
          by_cases absent : state.currentUser = none
          · have unchanged : screenOf (loginSystem.next state (.logout false)) =
                screenOf state := by
              simp [loginSystem, LoginSession.handle, LoginSession.logout,
                LoginSession.setCurrentUser, absent, screenOf, LoginSession.tabBar?]
            rw [unchanged]
            exact .idle (by simp)
          · simpa [loginSystem, LoginSession.handle, LoginSession.logout,
              LoginSession.setCurrentUser, absent, screenOf, LoginSession.tabBar?] using
              ScreenStep.signedOut absent
  | listenerDelivered => exact deliver_step state
  | mapTabOpened => exact openMapTab_step state
  | alertDismissed =>
      have unchanged : screenOf (loginSystem.next state .alertDismissed) = screenOf state := by
        have noBar : state.tabBar? = none := enabled.2
        simp only [screenOf, noBar]
        rfl
      rw [unchanged]
      exact .idle (by simp)

/-! ## The listener has heard of the user on screen -/

/-- Once nothing is pending the listener has seen the current user, and while a tab
bar is on screen it has seen some user. -/
structure Heard (screen : Screen) : Prop where
  settled : screen.notifications = 0 → screen.previousUserID = some screen.currentUser
  onScreen : ∀ bar, screen.bar = some bar → ∃ user, screen.previousUserID = some (some user)

theorem Heard.step {state : LoginSession} {event : LoginEvent} {after : Screen}
    (heard : Heard (screenOf state)) (step : ScreenStep state event after) : Heard after := by
  cases step with
  | idle _ => exact heard
  | signedIn _ => exact ⟨by simp, heard.onScreen⟩
  | signedOut _ => exact ⟨by simp, heard.onScreen⟩
  | ignored unmoved =>
      refine ⟨fun _ => rfl, fun bar shown => ?_⟩
      obtain ⟨user, saw⟩ := heard.onScreen bar shown
      rcases unmoved with same | ⟨present, _⟩
      · exact ⟨user, same.symm.trans saw⟩
      · obtain ⟨current, hcurrent⟩ := Option.ne_none_iff_exists'.mp present
        exact ⟨current, congrArg some hcurrent⟩
  | tabBarPresented present _ _ => exact ⟨fun _ => rfl, fun _ _ => ⟨_, congrArg some present⟩⟩
  | dismissed _ _ => exact ⟨fun _ => rfl, by simp⟩
  | mapOpened shown _ => exact ⟨heard.settled, fun _ _ => heard.onScreen _ shown⟩

/-! ## On-screen presenters and the current user -/

theorem accountReference_injective {left right : Key}
    (same : accountReference (some left) = accountReference (some right)) : left = right := by
  simpa [accountReference] using same

/-- A sign-in that succeeds while a tab bar is on screen is for the account that
all its presenters are bound to. -/
def AccountKept (state : LoginSession) (event : LoginEvent) : Prop :=
  ∀ index user bar, event = .signInSucceeded index → state.signIns[index]? = some user →
    state.tabBar? = some bar →
    ∀ presenter ∈ bar.presenters, presenter.ref = accountReference (some user)

/-- The presenters on screen are those of the current user, unless that user has just
signed out and the listener is still to hear of it. -/
def BoundToUser (screen : Screen) : Prop :=
  ∀ bar, screen.bar = some bar → ∃ user, bar.list.ref = accountReference (some user) ∧
    screen.previousUserID = some (some user) ∧
    ((screen.currentUser = some user ∧
        ∀ presenter ∈ bar.presenters, presenter.ref = accountReference (some user)) ∨
      (screen.currentUser = none ∧ 0 < screen.notifications))

theorem BoundToUser.step {state : LoginSession} {event : LoginEvent} {after : Screen}
    (bound : BoundToUser (screenOf state)) (kept : AccountKept state event)
    (step : ScreenStep state event after) : BoundToUser after := by
  cases step with
  | idle _ => exact bound
  | signedIn inFlight =>
      intro bar shown
      obtain ⟨user, listRef, saw, _⟩ := bound bar shown
      have refs := kept _ _ bar rfl inFlight shown
      have same := accountReference_injective
        ((refs bar.list (by simp [TabBar.presenters])).symm.trans listRef)
      subst same
      exact ⟨_, listRef, saw, .inl ⟨rfl, refs⟩⟩
  | signedOut _ =>
      intro bar shown
      obtain ⟨user, listRef, saw, _⟩ := bound bar shown
      exact ⟨user, listRef, saw, .inr ⟨rfl, Nat.succ_pos _⟩⟩
  | ignored unmoved =>
      intro bar shown
      obtain ⟨user, listRef, saw, current | ⟨absent, _⟩⟩ := bound bar shown
      · exact ⟨user, listRef, congrArg some current.1, .inl current⟩
      · have absent' : state.currentUser = none := absent
        rcases unmoved with same | ⟨present, _⟩
        · have saw' : state.previousUserID = some (some user) := saw
          rw [saw', absent'] at same
          cases same
        · exact absurd absent' present
  | @tabBarPresented user bar present _ fresh =>
      intro other same
      cases same
      subst fresh
      refine ⟨user, rfl, congrArg some present, .inl ⟨present, fun presenter member => ?_⟩⟩
      have only : presenter = PicksPresenter.create (some user) := by
        simpa [TabBar.presenters] using member
      rw [only]
      rfl
  | dismissed _ _ =>
      intro bar shown
      cases shown
  | @mapOpened bar shown unloaded =>
      intro other same
      cases same
      obtain ⟨user, listRef, saw, ⟨current, refs⟩ | gone⟩ := bound bar shown
      · have current' : state.currentUser = some user := current
        refine ⟨user, listRef, saw, .inl ⟨current, fun presenter member => ?_⟩⟩
        have either : presenter = bar.list ∨
            presenter = PicksPresenter.create state.currentUser := by
          simpa [TabBar.presenters] using member
        rcases either with rfl | rfl
        · exact listRef
        · rw [current']
          rfl
      · exact ⟨user, listRef, saw, .inr gone⟩

/-! ## Observers -/

def barObservers (bar : Option TabBar) : List Observer :=
  match bar with
  | some bar => bar.observers
  | none => []

/-- The observers are those left over from earlier tab bars, followed by those of the
one on screen. -/
structure Registered (screen : Screen) (leaked : List Observer) : Prop where
  split : screen.observers = leaked ++ barObservers screen.bar
  stale : ∀ observer ∈ leaked, ∀ bar, screen.bar = some bar → observer.session ≠ bar.session
  earlier : ∀ observer ∈ screen.observers, observer.session < screen.opened

/-- The delivery takes a tab bar off the screen. -/
def Dismisses (state : LoginSession) (event : LoginEvent) : Prop :=
  event = .listenerDelivered ∧ state.currentUser = none ∧ state.previousUserID ≠ some none ∧
    state.tabBar? ≠ none

/-- Only a dismissal leaves observers over. -/
theorem Registered.step {state : LoginSession} {event : LoginEvent} {after : Screen}
    {leaked : List Observer} (registered : Registered (screenOf state) leaked)
    (step : ScreenStep state event after) :
    ∃ leaked', Registered after leaked' ∧
      (leaked' = [] ↔ leaked = [] ∧ ¬ Dismisses state event) := by
  obtain ⟨split, stale, earlier⟩ := registered
  cases step with
  | idle other =>
      have kept : ¬ Dismisses state event := fun dismisses => other dismisses.1
      exact ⟨leaked, ⟨split, stale, earlier⟩, by simp [kept]⟩
  | signedIn _ => exact ⟨leaked, ⟨split, stale, earlier⟩, by simp [Dismisses]⟩
  | signedOut _ => exact ⟨leaked, ⟨split, stale, earlier⟩, by simp [Dismisses]⟩
  | ignored unmoved =>
      have kept : ¬ Dismisses state .listenerDelivered := by
        intro dismisses
        obtain ⟨_, absent, changed, _⟩ := dismisses
        rcases unmoved with same | ⟨present, _⟩
        · exact changed (same.trans (congrArg some absent))
        · exact present absent
      exact ⟨leaked, ⟨split, stale, earlier⟩, by simp [kept]⟩
  | @tabBarPresented user bar present free fresh =>
      have kept : ¬ Dismisses state .listenerDelivered := by
        intro dismisses
        obtain ⟨_, _, _, shown⟩ := dismisses
        exact shown free
      have before : state.observers = leaked := by
        have := split
        simpa [screenOf, free, barObservers] using this
      subst fresh
      refine ⟨leaked, ⟨?_, ?_, ?_⟩, by simp [kept]⟩
      · simp [before, barObservers, TabBar.observers]
      · rintro observer member other same
        cases same
        have listed : observer ∈ state.observers := by rwa [before]
        exact Nat.ne_of_lt (earlier observer listed)
      · intro observer member
        rcases List.mem_append.mp member with old | new
        · exact Nat.lt_succ_of_lt (earlier observer old)
        · rw [List.mem_singleton.mp new]
          exact Nat.lt_succ_self _
  | dismissed absent changed =>
      refine ⟨leaked ++ barObservers state.tabBar?, ⟨?_, ?_, earlier⟩, ?_⟩
      · rw [← show state.observers = leaked ++ barObservers state.tabBar? from split]
        simp [barObservers]
      · rintro _ _ bar shown
        cases shown
      · cases shown : state.tabBar? with
        | none => simp [Dismisses, barObservers, shown]
        | some bar => simp [Dismisses, barObservers, TabBar.observers, shown, absent, changed]
  | @mapOpened bar shown unloaded =>
      have before : state.observers = leaked ++ [bar.listObserver] := by
        have := split
        simpa [screenOf, shown, barObservers, TabBar.observers, unloaded] using this
      refine ⟨leaked, ⟨?_, ?_, ?_⟩, by simp [Dismisses]⟩
      · simp [before, barObservers, TabBar.observers, TabBar.listObserver,
          PicksPresenter.create]
      · rintro observer member other same
        cases same
        exact stale observer member bar shown
      · intro observer member
        rcases List.mem_append.mp member with old | new
        · exact earlier observer old
        · have listed : bar.listObserver ∈ state.observers := by simp [before]
          rw [List.mem_singleton.mp new]
          exact earlier bar.listObserver listed

/-! ## Runs -/

theorem heard_exec {restored : Option Key} {events : List LoginEvent}
    (legal : loginSystem.Legal (.launch restored) events) :
    Heard (screenOf (loginSystem.exec (.launch restored) events)) := by
  have step : ∀ (state : LoginSession) (event : LoginEvent), Heard (screenOf state) →
      loginSystem.enabled state event → Heard (screenOf (loginSystem.next state event)) :=
    fun _ _ heard enabled => heard.step (screen_step enabled)
  refine EventSystem.Along.invariant loginSystem step ⟨?_, ?_⟩ legal
  · simp [screenOf, LoginSession.launch]
  · simp [screenOf, LoginSession.launch, LoginSession.tabBar?]

theorem boundToUser_exec {restored : Option Key} {events : List LoginEvent}
    (legal : loginSystem.Legal (.launch restored) events)
    (kept : loginSystem.Along AccountKept (.launch restored) events) :
    BoundToUser (screenOf (loginSystem.exec (.launch restored) events)) := by
  have step : ∀ (state : LoginSession) (event : LoginEvent), BoundToUser (screenOf state) →
      loginSystem.enabled state event ∧ AccountKept state event →
      BoundToUser (screenOf (loginSystem.next state event)) :=
    fun _ _ bound both => bound.step both.2 (screen_step both.1)
  refine EventSystem.Along.invariant loginSystem step ?_ (legal.and _ kept)
  intro bar shown
  cases shown

theorem BoundToUser.settled {state : LoginSession} (bound : BoundToUser (screenOf state))
    (settled : state.notifications = 0) {bar : TabBar} (shown : state.tabBar? = some bar) :
    ∀ presenter ∈ bar.presenters, presenter.ref = accountReference state.currentUser := by
  obtain ⟨user, _, _, ⟨current, refs⟩ | ⟨_, pending⟩⟩ := bound bar shown
  · have current' : state.currentUser = some user := current
    rwa [current']
  · have pending' : 0 < state.notifications := pending
    omega

/-- In every run whose sign-ins, while a tab bar is on screen, are for its own
account, the presenters on screen are bound to the current user whenever no delivery
is pending. -/
theorem presenters_follow_user {restored : Option Key} {events : List LoginEvent}
    (legal : loginSystem.Legal (.launch restored) events)
    (kept : loginSystem.Along AccountKept (.launch restored) events)
    (settled : (loginSystem.exec (.launch restored) events).notifications = 0) :
    ∀ bar, (loginSystem.exec (.launch restored) events).tabBar? = some bar →
      ∀ presenter ∈ bar.presenters,
        presenter.ref =
          accountReference (loginSystem.exec (.launch restored) events).currentUser :=
  fun _ shown => (boundToUser_exec legal kept).settled settled shown

def firstUser : Key := ⟨"alice", by decide⟩

def secondUser : Key := ⟨"bob", by decide⟩

/-- One sign-in, up to both tabs being open. -/
def signInRun : List LoginEvent :=
  [.listenerDelivered, .didSignIn (.authenticated firstUser), .signInSucceeded 0,
    .listenerDelivered, .mapTabOpened]

theorem signInRun_accountKept : loginSystem.Along AccountKept (.launch none) signInRun := by
  refine ⟨?_, ?_, ?_, ?_, ?_, trivial⟩
  · intro _ _ _ same
    cases same
  · intro _ _ _ same
    cases same
  · intro _ _ _ _ _ shown
    cases shown
  · intro _ _ _ same
    cases same
  · intro _ _ _ same
    cases same

theorem presenters_follow_user_both_tabs :
    let state := loginSystem.exec (.launch none) signInRun
    ∃ bar, state.tabBar? = some bar ∧ bar.presenters.length = 2 ∧
      ∀ presenter ∈ bar.presenters, presenter.ref = accountReference state.currentUser := by
  intro state
  obtain ⟨bar, shown, loaded⟩ : ∃ bar, state.tabBar? = some bar ∧ bar.presenters.length = 2 :=
    ⟨_, rfl, rfl⟩
  exact ⟨bar, shown, loaded,
    presenters_follow_user (by decide +kernel) signInRun_accountKept (by decide +kernel) bar shown⟩

/-- A second sign-in completes while the first user's tab bar is on screen. The segue
it asks for is ignored, and the first user's list stays. -/
theorem presenters_of_other_user :
    let events := [.listenerDelivered, .didSignIn (.authenticated firstUser),
      .didSignIn (.authenticated secondUser), .signInSucceeded 0, .listenerDelivered,
      .signInSucceeded 0, .listenerDelivered]
    let state := loginSystem.exec (.launch none) events
    loginSystem.Legal (.launch none) events ∧ state.notifications = 0 ∧
      ¬ ∀ bar, state.tabBar? = some bar →
        ∀ presenter ∈ bar.presenters, presenter.ref = accountReference state.currentUser := by
  intro events state
  refine ⟨by decide +kernel, by decide +kernel, fun all => ?_⟩
  have shown : ∃ bar, state.tabBar? = some bar ∧
      bar.list.ref = accountReference (some firstUser) := ⟨_, rfl, rfl⟩
  have current : state.currentUser = some secondUser := by decide +kernel
  obtain ⟨bar, hbar, listRef⟩ := shown
  have same := all bar hbar bar.list (by simp [TabBar.presenters])
  rw [listRef, current] at same
  revert same
  decide

/-- With a user signed in, a delivery leaves the tab bar that is on screen. -/
theorem deliver_keeps_tabBar {state : LoginSession} {bar : TabBar} {user : Key}
    (shown : state.tabBar? = some bar) (current : state.currentUser = some user) :
    state.deliver.tabBar? = some bar ∧ state.deliver.currentUser = some user ∧
      state.deliver.notifications = state.notifications - 1 := by
  have presented : state.presented = some (.tabBar bar) := by
    unfold LoginSession.tabBar? at shown
    split at shown
    · next other same => rw [same, Option.some.inj shown]
    · cases shown
  unfold LoginSession.deliver
  by_cases same : state.previousUserID = some state.currentUser <;>
    simp [same, current, presented, LoginSession.presentTabBar, LoginSession.tabBar?]

theorem deliveries_keep_tabBar {bar : TabBar} {user : Key} (pending : Nat)
    {state : LoginSession} (count : state.notifications = pending)
    (shown : state.tabBar? = some bar) (current : state.currentUser = some user) :
    let after := loginSystem.exec state (List.replicate pending LoginEvent.listenerDelivered)
    after.notifications = 0 ∧ after.tabBar? = some bar ∧ after.currentUser = some user := by
  induction pending generalizing state with
  | zero => exact ⟨count, shown, current⟩
  | succ fewer ih =>
      obtain ⟨shown', current', count'⟩ := deliver_keeps_tabBar shown current
      have paid : state.deliver.notifications = fewer := by omega
      exact ih paid shown' current'

/-- A sign-in for another account while a tab bar is on screen ends, once all
deliveries are made, with a presenter on screen that is not the current user's. -/
theorem foreign_sign_in_stays {state : LoginSession} {event : LoginEvent}
    (foreign : ¬ AccountKept state event) :
    ∃ pending, ∃ after, after = loginSystem.exec (loginSystem.next state event)
        (List.replicate pending LoginEvent.listenerDelivered) ∧
      after.notifications = 0 ∧ ∃ bar, after.tabBar? = some bar ∧
        ∃ presenter ∈ bar.presenters, presenter.ref ≠ accountReference after.currentUser := by
  simp only [AccountKept, not_forall, exists_prop] at foreign
  obtain ⟨index, user, bar, rfl, inFlight, shown, presenter, listed, other⟩ := foreign
  let completed := loginSystem.next state (.signInSucceeded index)
  have shown' : completed.tabBar? = some bar := by
    simpa [completed, loginSystem, LoginSession.handle, inFlight, LoginSession.setCurrentUser,
      LoginSession.tabBar?] using shown
  have current : completed.currentUser = some user := by
    simp [completed, loginSystem, LoginSession.handle, inFlight, LoginSession.setCurrentUser]
  obtain ⟨settled, kept, still⟩ :=
    deliveries_keep_tabBar completed.notifications rfl shown' current
  exact ⟨_, _, rfl, settled, bar, kept, presenter, listed, by rwa [still]⟩

/-- Observers are left over exactly if some step of the run dismissed a tab bar. -/
def Accounted (restored : Option Key) (past : List LoginEvent) (state : LoginSession) : Prop :=
  ∃ leaked, Registered (screenOf state) leaked ∧
    (leaked = [] ↔
      loginSystem.Along (fun state event => ¬ Dismisses state event) (.launch restored) past)

theorem accounted_exec {restored : Option Key} {events : List LoginEvent}
    (legal : loginSystem.Legal (.launch restored) events) :
    Accounted restored events (loginSystem.exec (.launch restored) events) := by
  refine EventSystem.Along.history loginSystem ?_ ?_ legal
  · refine ⟨[], ⟨rfl, by simp, by simp [screenOf, LoginSession.launch]⟩, ?_⟩
    exact ⟨fun _ => trivial, fun _ => rfl⟩
  · rintro past event ⟨leaked, registered, dismissedIff⟩ enabled
    obtain ⟨leaked', registered', stepIff⟩ := registered.step (screen_step enabled)
    refine ⟨leaked', registered', ?_⟩
    rw [stepIff, dismissedIff, loginSystem.along_append]
    simp [EventSystem.Along]

theorem session_of_mem_observers {bar : TabBar} {observer : Observer}
    (member : observer ∈ bar.observers) :
    observer.session = bar.session ∧ ∃ presenter ∈ bar.presenters, observer.ref = presenter.ref := by
  rcases List.mem_cons.mp member with rfl | later
  · exact ⟨rfl, bar.list, by simp [TabBar.presenters], rfl⟩
  · cases loaded : bar.map with
    | none => simp [loaded] at later
    | some presenter =>
        have same : observer = ⟨bar.session, .map, presenter.ref⟩ := by simpa [loaded] using later
        subst same
        exact ⟨rfl, presenter, by simp [TabBar.presenters, loaded], rfl⟩

/-- The registered observers are those of the tab bar on screen and no others. -/
structure OnlyOnScreen (state : LoginSession) : Prop where
  owned : ∀ observer ∈ state.observers, observer ∈ state.onScreenObservers
  few : state.observers.length ≤ 2
  signedOut : state.currentUser = none → state.observers = []

theorem onlyOnScreen_iff {state : LoginSession} {leaked : List Observer}
    (registered : Registered (screenOf state) leaked) (heard : Heard (screenOf state))
    (settled : state.notifications = 0) : OnlyOnScreen state ↔ leaked = [] := by
  have split : state.observers = leaked ++ barObservers state.tabBar? := registered.split
  have onScreen : state.onScreenObservers = barObservers state.tabBar? := rfl
  constructor
  · intro only
    refine List.eq_nil_iff_forall_not_mem.mpr fun observer member => ?_
    have owned := only.owned observer (by simp [split, member])
    rw [onScreen] at owned
    cases shown : state.tabBar? with
    | none => simp [shown, barObservers] at owned
    | some bar =>
        rw [shown] at owned
        exact registered.stale observer member bar shown (session_of_mem_observers owned).1
  · rintro rfl
    rw [List.nil_append] at split
    refine ⟨fun observer member => by rwa [onScreen, ← split], ?_, fun absent => ?_⟩
    · rw [split]
      cases state.tabBar? with
      | none => simp [barObservers]
      | some bar => cases loaded : bar.map <;> simp [barObservers, TabBar.observers, loaded]
    · cases shown : state.tabBar? with
      | none => rw [split, shown]; rfl
      | some bar =>
          obtain ⟨user, saw⟩ := heard.onScreen bar shown
          have current : state.previousUserID = some state.currentUser := heard.settled settled
          have saw' : state.previousUserID = some (some user) := saw
          rw [current, absent] at saw'
          cases saw'

/-- Whenever no delivery is pending, the registered observers are those of the tab
bar on screen exactly if no delivery so far has dismissed a tab bar; and if its
sign-ins were for its own account, they all read the current user's data. -/
theorem observers_of_session_iff {restored : Option Key} {events : List LoginEvent}
    (legal : loginSystem.Legal (.launch restored) events)
    (settled : (loginSystem.exec (.launch restored) events).notifications = 0) :
    (OnlyOnScreen (loginSystem.exec (.launch restored) events) ↔
      loginSystem.Along (fun state event => ¬ Dismisses state event) (.launch restored) events) ∧
    (loginSystem.Along (fun state event => ¬ Dismisses state event) (.launch restored) events →
      loginSystem.Along AccountKept (.launch restored) events →
      ∀ observer ∈ (loginSystem.exec (.launch restored) events).observers,
        observer.ref =
          accountReference (loginSystem.exec (.launch restored) events).currentUser) := by
  obtain ⟨leaked, registered, dismissedIff⟩ := accounted_exec legal
  have only := onlyOnScreen_iff registered (heard_exec legal) settled
  refine ⟨only.trans dismissedIff, fun undismissed kept observer member => ?_⟩
  have owned := (only.mpr (dismissedIff.mpr undismissed)).owned observer member
  have bound := boundToUser_exec legal kept
  cases shown : (loginSystem.exec (.launch restored) events).tabBar? with
  | none => simp [LoginSession.onScreenObservers, shown] at owned
  | some bar =>
      simp only [LoginSession.onScreenObservers, shown] at owned
      obtain ⟨_, presenter, listed, same⟩ := session_of_mem_observers owned
      rw [same]
      exact bound.settled settled shown presenter listed

theorem observers_of_session_iff_first_session :
    OnlyOnScreen (loginSystem.exec (.launch none) signInRun) := by
  refine (observers_of_session_iff (by decide +kernel) (by decide +kernel)).1.mpr
    ⟨?_, ?_, ?_, ?_, ?_, trivial⟩
  · exact fun dismisses => dismisses.2.2.2 rfl
  · exact fun dismisses => by cases dismisses.1
  · exact fun dismisses => by cases dismisses.1
  · exact fun dismisses => by cases dismisses.2.1
  · exact fun dismisses => by cases dismisses.1

/-- After one sign-in and one logout nobody is signed in and an observer is left. -/
theorem observer_outlives_session :
    let events := [.listenerDelivered, .didSignIn (.authenticated firstUser), .signInSucceeded 0,
      .listenerDelivered, .logout false, .listenerDelivered]
    let state := loginSystem.exec (.launch none) events
    loginSystem.Legal (.launch none) events ∧ state.notifications = 0 ∧
      state.currentUser = none ∧ ¬ OnlyOnScreen state := by
  intro events state
  have absent : state.currentUser = none := by decide +kernel
  have left : state.observers.length = 1 := by decide +kernel
  refine ⟨by decide +kernel, by decide +kernel, absent, fun only => ?_⟩
  rw [only.signedOut absent] at left
  cases left

end PicksOnMap.Guarantees
