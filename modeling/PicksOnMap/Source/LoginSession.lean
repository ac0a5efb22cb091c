import PicksOnMap.Source.PicksPresenter
import PicksOnMap.Support.EventSystem

/-!
# Login sessions

Source pin: LoginViewController.swift:22-37; LoginModel.swift:22-40;
ProfileViewController.swift:15-24; ShowingAlert.swift:20-33; PicksPresenter.swift:16,22-33;
ListTableViewController.swift:19-24; MapViewController.swift:30-34; Main.storyboard:47,205-207;
Pods/FirebaseAuth, FIRAuth.m:1202-1211,1246-1287,1518-1541,1768-1787.

The login screen stays at the bottom and presents everything else: the error
alerts of the login model and, when the auth-state listener asks for it, a fresh tab
bar. UIKit ignores a presentation while another one is up. A sign-in or a sign-out
posts a notification; the listener reads the current user when one is delivered and
is called if the uid differs from the one it saw last. Its first delivery is pending
from the start. The observer that a presenter registers is removed nowhere.
-/
namespace PicksOnMap.Source

open Support

inductive Tab where
  | list
  | map
  deriving DecidableEq, Repr

/-- A value observer, with the tab bar its presenter was made for. -/
structure Observer where
  session : Nat
  tab : Tab
  ref : DatabaseReference
  deriving DecidableEq

/-- The tab bar of one presentation. The list tab is loaded with it, the map tab when
it is first opened. -/
structure TabBar where
  session : Nat
  list : PicksPresenter
  map : Option PicksPresenter := none

namespace TabBar

def presenters (bar : TabBar) : List PicksPresenter := bar.list :: bar.map.toList

def listObserver (bar : TabBar) : Observer := ⟨bar.session, .list, bar.list.ref⟩

def observers (bar : TabBar) : List Observer :=
  bar.listObserver ::
    (bar.map.map fun presenter => (⟨bar.session, .map, presenter.ref⟩ : Observer)).toList

end TabBar

inductive Presented where
  | alert
  | tabBar (bar : TabBar)

structure LoginSession where
  googleUser : Option Key := none
  currentUser : Option Key
  /-- Firebase sign-ins in flight, each for its account. -/
  signIns : List Key := []
  /-- Deliveries to the auth-state listener that are still to come. -/
  notifications : Nat := 1
  /-- The listener's `previousUserID`; `none` before its first invocation. -/
  previousUserID : Option (Option Key) := none
  presented : Option Presented := none
  opened : Nat := 0
  observers : List Observer := []

/-- What `sign(_:didSignInFor:withError:)` is called with. -/
inductive GoogleResult where
  | error
  | withoutAuthentication (user : Key)
  | authenticated (user : Key)

inductive LoginEvent where
  | didSignIn (result : GoogleResult)
  | signInSucceeded (index : Nat)
  | signInFailed (index : Nat)
  | logout (signOutThrows : Bool)
  | listenerDelivered
  | mapTabOpened
  | alertDismissed

namespace LoginSession

/-- The login screen has just loaded, maybe with a user restored from the last launch. -/
def launch (restored : Option Key) : LoginSession := { currentUser := restored }

/-- `delegate?.show(error:)` -/
def showAlert (state : LoginSession) : LoginSession :=
  match state.presented with
  | none => { state with presented := some .alert }
  | some _ => state

/-- The segue to the main tab bar. -/
def presentTabBar (state : LoginSession) : LoginSession :=
  match state.presented with
  | none =>
      let bar : TabBar :=
        { session := state.opened, list := PicksPresenter.create state.currentUser }
      { state with
        presented := some (.tabBar bar)
        opened := state.opened + 1
        observers := state.observers ++ [bar.listObserver] }
  | some _ => state

def dismiss (state : LoginSession) : LoginSession := { state with presented := none }

def didSignIn (state : LoginSession) : GoogleResult → LoginSession
  | .error => state.showAlert
  | .withoutAuthentication user => { state with googleUser := some user }
  | .authenticated user =>
      { state with googleUser := some user, signIns := state.signIns ++ [user] }

/-- `updateCurrentUser:`; signing out without a user posts nothing. -/
def setCurrentUser (state : LoginSession) (user : Option Key) : LoginSession :=
  if state.currentUser = none ∧ user = none then state
  else { state with currentUser := user, notifications := state.notifications + 1 }

def logout (state : LoginSession) (signOutThrows : Bool) : LoginSession :=
  let afterFirebase := if signOutThrows then state else state.setCurrentUser none
  { afterFirebase with googleUser := none }

/-- The block of `addStateDidChangeListener`, called if the uid has changed. -/
def deliver (state : LoginSession) : LoginSession :=
  let seen := { state with
    notifications := state.notifications - 1
    previousUserID := some state.currentUser }
  if state.previousUserID = some state.currentUser then seen
  else
    match state.currentUser with
    | some _ => seen.presentTabBar
    | none => seen.dismiss

def openMapTab (state : LoginSession) : LoginSession :=
  match state.presented with
  | some (.tabBar bar) =>
      match bar.map with
      | none =>
          let presenter := PicksPresenter.create state.currentUser
          { state with
            presented := some (.tabBar { bar with map := some presenter })
            observers := state.observers ++ [⟨bar.session, .map, presenter.ref⟩] }
      | some _ => state
  | _ => state

def handle (state : LoginSession) : LoginEvent → LoginSession
  | .didSignIn result => state.didSignIn result
  | .signInSucceeded index =>
      match state.signIns[index]? with
      | none => state
      | some user =>
          { state with signIns := state.signIns.eraseIdx index }.setCurrentUser (some user)
  | .signInFailed index => { state with signIns := state.signIns.eraseIdx index }.showAlert
  | .logout signOutThrows => state.logout signOutThrows
  | .listenerDelivered => state.deliver
  | .mapTabOpened => state.openMapTab
  | .alertDismissed => state.dismiss

def tabBar? (state : LoginSession) : Option TabBar :=
  match state.presented with
  | some (.tabBar bar) => some bar
  | _ => none

def Enabled (state : LoginSession) : LoginEvent → Prop
  | .didSignIn _ | .logout _ => True
  | .signInSucceeded index | .signInFailed index => index < state.signIns.length
  | .listenerDelivered => 0 < state.notifications
  | .mapTabOpened => state.tabBar?.isSome
  | .alertDismissed => state.presented.isSome ∧ state.tabBar? = none

instance (state : LoginSession) (event : LoginEvent) : Decidable (state.Enabled event) :=
  match event with
  | .didSignIn _ | .logout _ => inferInstanceAs (Decidable True)
  | .signInSucceeded _ | .signInFailed _ => inferInstanceAs (Decidable (_ < _))
  | .listenerDelivered => inferInstanceAs (Decidable (_ < _))
  | .mapTabOpened => inferInstanceAs (Decidable (_ = true))
  | .alertDismissed => inferInstanceAs (Decidable (_ ∧ _))

/-- The observers of the presenters on screen. -/
def onScreenObservers (state : LoginSession) : List Observer :=
  match state.tabBar? with
  | some bar => bar.observers
  | none => []

end LoginSession

def loginSystem : EventSystem LoginSession LoginEvent Empty where
  enabled := LoginSession.Enabled
  next := LoginSession.handle
  emits _ _ := []

instance (state : LoginSession) (event : LoginEvent) :
    Decidable (loginSystem.enabled state event) :=
  inferInstanceAs (Decidable (state.Enabled event))

end PicksOnMap.Source
