import PicksOnMap.Source.LoginSession

/-!
# The Google session and the Firebase session

Source pin: LoginModel.swift:22-39; ProfileViewController.swift:15-24. Of the login
screen only three things matter here: the account signed in with Google, the current
Firebase user, and the Firebase sign-ins in flight (`Sessions`, with `sessions_next`
for what a step does to them). A step keeps the two accounts together exactly if it
`Settles`, and so a run does exactly if all its steps do (`sessions_together_iff`).
-/
namespace PicksOnMap.Guarantees

open Source Support

/-- The two session stores, and what may still change the second. -/
structure Sessions where
  google : Option Key
  firebase : Option Key
  signIns : List Key
  deriving DecidableEq

def sessionsOf (state : LoginSession) : Sessions :=
  ⟨state.googleUser, state.currentUser, state.signIns⟩

namespace Sessions

/-- What each event does to the stores. -/
def step (sessions : Sessions) : LoginEvent → Sessions
  | .didSignIn .error => sessions
  | .didSignIn (.withoutAuthentication user) => { sessions with google := some user }
  | .didSignIn (.authenticated user) =>
      { sessions with google := some user, signIns := sessions.signIns ++ [user] }
  | .signInSucceeded index =>
      match sessions.signIns[index]? with
      | none => sessions
      | some user =>
          { sessions with firebase := some user, signIns := sessions.signIns.eraseIdx index }
  | .signInFailed index => { sessions with signIns := sessions.signIns.eraseIdx index }
  | .logout true => { sessions with google := none }
  | .logout false => { sessions with google := none, firebase := none }
  | .listenerDelivered | .mapTabOpened | .alertDismissed => sessions

/-- With nothing in flight both stores hold the same account, or none. -/
def Agree (sessions : Sessions) : Prop :=
  sessions.signIns = [] → sessions.google = sessions.firebase

/-- The accounts signed in, whatever is in flight. -/
def accounts (sessions : Sessions) : Option Key × Option Key := (sessions.google, sessions.firebase)

end Sessions

theorem sessionsOf_showAlert (state : LoginSession) :
    sessionsOf state.showAlert = sessionsOf state := by
  unfold LoginSession.showAlert
  cases state.presented <;> rfl

theorem sessionsOf_setCurrentUser (state : LoginSession) (user : Option Key) :
    sessionsOf (state.setCurrentUser user) = ⟨state.googleUser, user, state.signIns⟩ := by
  unfold LoginSession.setCurrentUser
  split
  · next absent => simp [sessionsOf, absent.1, absent.2]
  · rfl

theorem sessionsOf_deliver (state : LoginSession) :
    sessionsOf state.deliver = sessionsOf state := by
  unfold LoginSession.deliver
  simp only
  split
  · rfl
  · cases present : state.currentUser with
    | none => simp [LoginSession.dismiss, sessionsOf, present]
    | some user =>
        simp only [LoginSession.presentTabBar]
        cases state.presented <;> simp [sessionsOf, present]

theorem sessionsOf_openMapTab (state : LoginSession) :
    sessionsOf state.openMapTab = sessionsOf state := by
  unfold LoginSession.openMapTab
  split
  · split <;> rfl
  · rfl

/-- The login screen does to the stores what `step` says. -/
theorem sessions_next (state : LoginSession) (event : LoginEvent) :
    sessionsOf (loginSystem.next state event) = (sessionsOf state).step event := by
  cases event with
  | didSignIn result =>
      cases result with
      | error => exact sessionsOf_showAlert state
      | withoutAuthentication user => rfl
      | authenticated user => rfl
  | signInSucceeded index =>
      simp only [loginSystem, LoginSession.handle, Sessions.step, sessionsOf]
      cases state.signIns[index]? with
      | none => rfl
      | some user => exact sessionsOf_setCurrentUser _ _
  | signInFailed index => exact sessionsOf_showAlert _
  | logout signOutThrows =>
      cases signOutThrows with
      | true => rfl
      | false =>
          have firebase := sessionsOf_setCurrentUser state none
          simp only [sessionsOf, Sessions.mk.injEq] at firebase
          simp [loginSystem, LoginSession.handle, LoginSession.logout, Sessions.step, sessionsOf,
            firebase]
  | listenerDelivered => exact sessionsOf_deliver state
  | mapTabOpened => exact sessionsOf_openMapTab state
  | alertDismissed => rfl

/-- The condition on a step: a Google sign-in that starts no Firebase sign-in is for
the current Firebase user; the sign-in that completes last is for the account signed
in with Google by then; one that fails last leaves the accounts the same anyway; and
Firebase refuses to sign out only when nobody is signed in with Google. -/
def Settles (state : LoginSession) : LoginEvent → Prop
  | .didSignIn (.withoutAuthentication user) =>
      state.signIns = [] → state.currentUser = some user
  | .signInSucceeded index =>
      state.signIns.length = 1 → state.signIns[index]? = state.googleUser
  | .signInFailed _ => state.signIns.length = 1 → state.currentUser = state.googleUser
  | .logout true => state.googleUser = none
  | .didSignIn _ | .logout false | .listenerDelivered | .mapTabOpened | .alertDismissed => True

theorem eraseIdx_eq_nil_iff {signIns : List Key} {index : Nat} (inside : index < signIns.length) :
    signIns.eraseIdx index = [] ↔ signIns.length = 1 := by
  rw [← List.length_eq_zero_iff, List.length_eraseIdx_of_lt inside]
  omega

/-- From a state in which the stores agree, a step settles exactly if they agree after
it and it is no failed logout that changed them. -/
theorem settles_iff {state : LoginSession} {event : LoginEvent}
    (agree : (sessionsOf state).Agree) (enabled : loginSystem.enabled state event) :
    Settles state event ↔
      (sessionsOf (loginSystem.next state event)).Agree ∧
        (event = .logout true → (sessionsOf (loginSystem.next state event)).accounts =
          (sessionsOf state).accounts) := by
  rw [sessions_next]
  cases event with
  | didSignIn result =>
      cases result with
      | error => simpa [Settles, Sessions.step] using agree
      | withoutAuthentication user =>
          simp [Settles, Sessions.step, Sessions.Agree, sessionsOf, eq_comm]
      | authenticated user => simp [Settles, Sessions.step, Sessions.Agree]
  | signInSucceeded index =>
      have inside : index < state.signIns.length := enabled
      simp [Settles, Sessions.step, Sessions.Agree, sessionsOf, List.getElem?_eq_getElem inside,
        eraseIdx_eq_nil_iff inside, eq_comm]
  | signInFailed index =>
      have inside : index < state.signIns.length := enabled
      simp [Settles, Sessions.step, Sessions.Agree, sessionsOf, eraseIdx_eq_nil_iff inside, eq_comm]
  | logout signOutThrows =>
      cases signOutThrows with
      | false => simp [Settles, Sessions.step, Sessions.Agree]
      | true =>
          simp only [Sessions.Agree, sessionsOf] at agree
          simp only [Settles, Sessions.step, Sessions.Agree, Sessions.accounts, sessionsOf,
            true_implies, Prod.mk.injEq, and_true]
          constructor
          · intro absent
            exact ⟨fun idle => absent.symm.trans (agree idle), absent.symm⟩
          · intro both
            exact both.2.symm
  | _ => simpa [Settles, Sessions.step] using agree

/-! ## Runs -/

/-- The events that touch neither store. -/
def KeepsSessions : LoginEvent → Prop
  | .didSignIn .error | .signInFailed _ | .listenerDelivered | .mapTabOpened
  | .alertDismissed => True
  | _ => False

/-- Where the sign-in in flight at `position` is after these events, unless one of them
was its refusal. A refused sign-in before it lets it move up. -/
def positionAfter (position : Nat) : List LoginEvent → Option Nat
  | [] => some position
  | .signInFailed index :: rest =>
      if index = position then none
      else positionAfter (if index < position then position - 1 else position) rest
  | _ :: rest => positionAfter position rest

/-- An attempt to sign in that Firebase refuses, and nothing else in between that
touches the stores. Other sign-ins in flight may be refused meanwhile. -/
def FailedSignIn (state : LoginSession) (user : Key) (attempt : List LoginEvent) : Prop :=
  ∃ (meanwhile : List LoginEvent) (index : Nat), (∀ event ∈ meanwhile, KeepsSessions event) ∧
    positionAfter state.signIns.length meanwhile = some index ∧
    attempt = .didSignIn (.authenticated user) :: (meanwhile ++ [.signInFailed index])

/-- `positionAfter` follows the sign-in. -/
theorem signIns_positionAfter {events : List LoginEvent}
    (keeps : ∀ event ∈ events, KeepsSessions event) {state : LoginSession} {position index : Nat}
    {user : Key} (started : state.signIns[position]? = some user)
    (followed : positionAfter position events = some index) :
    (loginSystem.exec state events).signIns[index]? = some user := by
  induction events generalizing state position with
  | nil =>
      obtain rfl := Option.some.inj followed
      exact started
  | cons event rest ih =>
      have later : ∀ event ∈ rest, KeepsSessions event :=
        fun event member => keeps event (List.mem_cons_of_mem _ member)
      have signIns : (loginSystem.next state event).signIns =
          ((sessionsOf state).step event).signIns :=
        congrArg Sessions.signIns (sessions_next state event)
      rw [EventSystem.exec_cons]
      cases event with
      | signInFailed refused =>
          unfold positionAfter at followed
          split at followed
          · cases followed
          · next other =>
              refine ih later ?_ followed
              rw [signIns]
              change (state.signIns.eraseIdx refused)[_]? = _
              split
              · next earlier =>
                  obtain ⟨before, rfl⟩ : ∃ before, position = before + 1 :=
                    ⟨position - 1, by omega⟩
                  rw [Nat.add_sub_cancel, List.getElem?_eraseIdx_of_ge (by omega), started]
              · rw [List.getElem?_eraseIdx_of_lt (by omega), started]
      | didSignIn result =>
          have first : KeepsSessions (.didSignIn result) := keeps _ List.mem_cons_self
          cases result with
          | error => exact ih later (by rw [signIns]; exact started) followed
          | _ => exact absurd first id
      | signInSucceeded refused => exact absurd (keeps _ List.mem_cons_self) id
      | logout signOutThrows => exact absurd (keeps _ List.mem_cons_self) id
      | _ => exact ih later (by rw [signIns]; exact started) followed

theorem accounts_exec_keeps {events : List LoginEvent}
    (keeps : ∀ event ∈ events, KeepsSessions event) (state : LoginSession) :
    (sessionsOf (loginSystem.exec state events)).accounts = (sessionsOf state).accounts := by
  induction events generalizing state with
  | nil => rfl
  | cons event rest ih =>
      rw [EventSystem.exec_cons, ih (fun later member => keeps later (List.mem_cons_of_mem _ member)),
        sessions_next]
      have first : KeepsSessions event := keeps event List.mem_cons_self
      cases event with
      | didSignIn result =>
          cases result with
          | error => rfl
          | _ => exact absurd first id
      | signInSucceeded index => exact absurd first id
      | logout signOutThrows => exact absurd first id
      | _ => rfl

/-- All that a refused attempt leaves behind is its account in the Google session. -/
theorem accounts_failedSignIn {state : LoginSession} {user : Key} {attempt : List LoginEvent}
    (failed : FailedSignIn state user attempt) :
    (sessionsOf (loginSystem.exec state attempt)).accounts = (some user, state.currentUser) := by
  obtain ⟨meanwhile, index, keeps, -, rfl⟩ := failed
  have refused : ∀ event ∈ meanwhile ++ [.signInFailed index], KeepsSessions event := by
    intro event member
    rcases List.mem_append.mp member with earlier | last
    · exact keeps event earlier
    · rw [List.mem_singleton.mp last]
      trivial
  rw [EventSystem.exec_cons, accounts_exec_keeps refused, sessions_next]
  rfl

/-- The two stores stay together during a run: they agree whenever nothing is in
flight, and what fails at Firebase leaves both as they were. -/
structure Together (start : LoginSession) (events : List LoginEvent) : Prop where
  settled : ∀ before after, events = before ++ after →
    (loginSystem.exec start before).signIns = [] →
    (loginSystem.exec start before).googleUser = (loginSystem.exec start before).currentUser
  failedLogout : ∀ before after, events = before ++ .logout true :: after →
    (sessionsOf (loginSystem.exec start (before ++ [.logout true]))).accounts =
      (sessionsOf (loginSystem.exec start before)).accounts
  failedSignIn : ∀ before user attempt after, events = before ++ (attempt ++ after) →
    FailedSignIn (loginSystem.exec start before) user attempt →
    (sessionsOf (loginSystem.exec start (before ++ attempt))).accounts =
      (sessionsOf (loginSystem.exec start before)).accounts

theorem agree_exec {start : LoginSession} (agree : (sessionsOf start).Agree)
    {events : List LoginEvent} (legal : loginSystem.Legal start events)
    (settles : loginSystem.Along Settles start events) :
    (sessionsOf (loginSystem.exec start events)).Agree := by
  have step : ∀ state event, (sessionsOf state).Agree →
      (loginSystem.enabled state event ∧ Settles state event) →
      (sessionsOf (loginSystem.next state event)).Agree := fun state event before both =>
    ((settles_iff before both.1).mp both.2).1
  exact EventSystem.Along.invariant _ step agree (EventSystem.Along.and _ legal settles)

theorem failedSignIn_unchanged_iff {state : LoginSession} {user : Key} {attempt : List LoginEvent}
    (failed : FailedSignIn state user attempt) :
    (sessionsOf (loginSystem.exec state attempt)).accounts = (sessionsOf state).accounts ↔
      state.googleUser = some user := by
  rw [accounts_failedSignIn failed]
  simp [Sessions.accounts, sessionsOf, eq_comm]

theorem Together.settles {start : LoginSession} {events : List LoginEvent}
    (legal : loginSystem.Legal start events) (together : Together start events) :
    loginSystem.Along Settles start events := by
  have legalAt := (EventSystem.along_iff_forall_split loginSystem).mp legal
  refine (EventSystem.along_iff_forall_split loginSystem).mpr fun before event after split => ?_
  have agreeBefore : (sessionsOf (loginSystem.exec start before)).Agree :=
    together.settled before (event :: after) split
  have agreeAfter : (sessionsOf (loginSystem.exec start (before ++ [event]))).Agree :=
    together.settled (before ++ [event]) after (by simp [split])
  rw [settles_iff agreeBefore (legalAt before event after split)]
  refine ⟨by simpa using agreeAfter, fun refused => ?_⟩
  subst refused
  simpa using together.failedLogout before after split

/-- A failed logout among steps that settle finds no Google session to end. -/
theorem failedLogout_unchanged {start : LoginSession} (agree : (sessionsOf start).Agree)
    {before after : List LoginEvent}
    (legal : loginSystem.Legal start (before ++ .logout true :: after))
    (settles : loginSystem.Along Settles start (before ++ .logout true :: after)) :
    (sessionsOf (loginSystem.exec start (before ++ [.logout true]))).accounts =
      (sessionsOf (loginSystem.exec start before)).accounts := by
  have agreeBefore := agree_exec agree (EventSystem.Along.before _ legal)
    (EventSystem.Along.before _ settles)
  have settled : Settles (loginSystem.exec start before) (.logout true) :=
    EventSystem.Along.at _ settles
  have kept := (settles_iff agreeBefore (EventSystem.Along.at _ legal)).mp settled
  simpa using kept.2 rfl

end PicksOnMap.Guarantees
