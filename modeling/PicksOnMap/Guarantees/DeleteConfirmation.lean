import PicksOnMap.Source.Account
import PicksOnMap.Source.ListScreen

/-!
# Confirmed deletions

The confirmation remembers a row's number, not its pick. `confirmed_delete_iff`
takes any run in which a long press is later confirmed and says when the answer
deletes the pick that was pressed: exactly if the last snapshot in between, where
there was one, still has that pick's key in that row. The two invariants on the way
are that question numbers are not reused (`Fresh`) and that a question keeps its row
(`Captured`).
-/
namespace PicksOnMap.Guarantees

open Source Support

/-- What confirming the deletion of `pressed` ought to do: remove its key, or
nothing once the pick is no longer listed. -/
def DeletesPressed (presenter : PicksPresenter) (pressed : Pick)
    (answer : List (Except Trap (Option DatabaseWrite))) : Prop :=
  (pressed.key ∈ presenter.picks.map Pick.key →
      answer = [.ok (pressed.ref.map DatabaseReference.removeValue)]) ∧
    (pressed.key ∉ presenter.picks.map Pick.key → answer = [.ok none])

/-- Deleting by row number is right exactly when the pressed key is in that row. -/
theorem deletePick_deletes_pressed_iff {presenter : PicksPresenter} (bound : presenter.Bound)
    {pressed : Pick} {key : Key} (pressedRef : pressed.ref = some (presenter.ref.childKey key))
    (row : Nat) :
    DeletesPressed presenter pressed [presenter.deletePick row] ↔
      presenter.picks[row]?.bind Pick.key = pressed.key := by
  have pressedKey : pressed.key = some key := by simp [Pick.key, pressedRef]
  unfold PicksPresenter.deletePick
  cases inRow : presenter.picks[row]? with
  | none =>
      simp only [Option.bind_none, pressedKey, reduceCtorEq, iff_false]
      intro right
      obtain ⟨listed, unlisted⟩ := right
      by_cases member : pressed.key ∈ presenter.picks.map Pick.key
      · simpa using listed member
      · simpa using unlisted member
  | some pick =>
      obtain ⟨other, pickRef⟩ := bound pick (List.mem_of_getElem? inRow)
      have pickKey : pick.key = some other := by simp [Pick.key, pickRef]
      have member : some other ∈ presenter.picks.map Pick.key :=
        List.mem_map.mpr ⟨pick, List.mem_of_getElem? inRow, pickKey⟩
      simp only [Option.bind_some, pickKey, pressedKey, Option.some.injEq]
      constructor
      · intro right
        obtain ⟨listed, unlisted⟩ := right
        by_cases shown : pressed.key ∈ presenter.picks.map Pick.key
        · have paths := listed shown
          simpa [pickRef, pressedRef, DatabaseReference.removeValue] using paths
        · have silent := unlisted shown
          simp [pickRef] at silent
      · rintro rfl
        refine ⟨fun _ => by rw [pickRef, pressedRef], fun unlisted => ?_⟩
        rw [pressedKey] at unlisted
        exact absurd member unlisted

/-! ## Open questions -/

def Fresh (list : ListTableViewController) : Prop :=
  ∀ confirmation ∈ list.confirmations, confirmation.id < list.opened

/-- The question `id`, as long as it is open, is about `row`. -/
def Captured (id row : Nat) (list : ListTableViewController) : Prop :=
  id < list.opened ∧
    ∀ confirmation ∈ list.confirmations, confirmation.id = id → confirmation.row = row

instance (id row : Nat) (list : ListTableViewController) : Decidable (Captured id row list) :=
  inferInstanceAs (Decidable (_ ∧ _))

/-- A step asks one more question under the next number, or asks none. -/
theorem confirmations_next (list : ListTableViewController) (event : ListEvent) :
    (∃ row, event = .longPressEnded row ∧
      (listScreen.next list event).confirmations = list.confirmations ++ [⟨list.opened, row⟩] ∧
      (listScreen.next list event).opened = list.opened + 1) ∨
    ((∀ confirmation ∈ (listScreen.next list event).confirmations,
        confirmation ∈ list.confirmations) ∧
      (listScreen.next list event).opened = list.opened) := by
  have closing : ∀ id, ∀ confirmation ∈ (list.close id).confirmations,
      confirmation ∈ list.confirmations := fun _ _ member => List.mem_of_mem_filter member
  cases event with
  | snapshot node => exact .inr ⟨fun _ member => member, rfl⟩
  | longPressEnded row => exact .inl ⟨row, rfl, rfl, rfl⟩
  | answerNo id => exact .inr ⟨closing id, rfl⟩
  | answerYes id =>
      refine .inr ?_
      simp only [listScreen, ListTableViewController.handle]
      cases list.confirmation? id with
      | none => exact ⟨fun _ member => member, rfl⟩
      | some confirmation =>
          simp only
          cases list.presenter.deletePick confirmation.row <;> exact ⟨closing id, rfl⟩

theorem Fresh.next {list : ListTableViewController} (fresh : Fresh list) (event : ListEvent) :
    Fresh (listScreen.next list event) := by
  intro confirmation member
  rcases confirmations_next list event with ⟨row, _, asked, opened⟩ | ⟨old, opened⟩
  · rw [asked] at member
    rw [opened]
    rcases List.mem_append.mp member with earlier | new
    · have := fresh confirmation earlier
      omega
    · have same : confirmation = ⟨list.opened, row⟩ := by simpa using new
      simp [same]
  · rw [opened]
    exact fresh confirmation (old confirmation member)

theorem Captured.next {id row : Nat} {list : ListTableViewController}
    (captured : Captured id row list) (event : ListEvent) :
    Captured id row (listScreen.next list event) := by
  obtain ⟨used, rows⟩ := captured
  rcases confirmations_next list event with ⟨otherRow, _, asked, opened⟩ | ⟨old, opened⟩
  · refine ⟨by omega, fun confirmation member same => ?_⟩
    rw [asked] at member
    rcases List.mem_append.mp member with earlier | new
    · exact rows confirmation earlier same
    · have isNew : confirmation = ⟨list.opened, otherRow⟩ := by simpa using new
      subst isNew
      simp only at same
      omega
  · exact ⟨by omega, fun confirmation member same =>
      rows confirmation (old confirmation member) same⟩

/-- The question that a long press opens is about the pressed row. -/
theorem Fresh.captured {list : ListTableViewController} (fresh : Fresh list) (row : Nat) :
    Captured list.opened row (listScreen.next list (.longPressEnded row)) := by
  refine ⟨Nat.lt_succ_self _, fun confirmation member same => ?_⟩
  rcases List.mem_append.mp
    (show confirmation ∈ list.confirmations ++ [⟨list.opened, row⟩] from member) with earlier | new
  · have := fresh confirmation earlier
    omega
  · have isNew : confirmation = ⟨list.opened, row⟩ := by simpa using new
    rw [isNew]

/-- `Yes` deletes by the captured row from the list held at that moment. -/
theorem emits_answerYes {id row : Nat} {list : ListTableViewController}
    (captured : Captured id row list) (asked : (list.confirmation? id).isSome) :
    listScreen.emits list (.answerYes id) = [list.presenter.deletePick row] := by
  obtain ⟨confirmation, found⟩ := Option.isSome_iff_exists.mp asked
  have same : confirmation.id = id := by
    simpa using List.find?_some found
  have inRow : confirmation.row = row :=
    captured.2 confirmation (List.mem_of_find?_eq_some found) same
  simp only [listScreen, ListTableViewController.handle, found, inRow]
  cases list.presenter.deletePick row <;> rfl

/-! ## Runs -/

theorem presenter_bound (currentUser : Option Key) (events : List ListEvent) :
    (listScreen.exec (.load currentUser) events).presenter.Bound ∧
      (listScreen.exec (.load currentUser) events).presenter.ref =
        accountReference currentUser := by
  rw [presenter_exec]
  cases lastSnapshot events with
  | none => exact ⟨PicksPresenter.create_bound currentUser, rfl⟩
  | some node => exact ⟨PicksPresenter.handleSnapshot_bound _ node, rfl⟩

theorem fresh_exec (currentUser : Option Key) (events : List ListEvent) :
    Fresh (listScreen.exec (.load currentUser) events) := by
  refine listScreen.exec_invariant (fun _ event fresh => fresh.next event) ?_ events
  intro confirmation member
  cases member

theorem Fresh.captured_exec {list : ListTableViewController} (fresh : Fresh list) (row : Nat)
    (events : List ListEvent) :
    Captured list.opened row
      (listScreen.exec (listScreen.next list (.longPressEnded row)) events) :=
  listScreen.exec_invariant (fun _ event captured => captured.next event) (fresh.captured row)
    events

/-- In every run, and however many snapshots came in between, `Yes` deletes the pick
whose row was pressed, or nothing once it is gone, exactly when the last of those
snapshots has the pressed key in that row. -/
theorem confirmed_delete_iff {currentUser : Option Key} {before between : List ListEvent}
    {row : Nat} {pressed : Pick}
    (legal : listScreen.Legal (.load currentUser) (before ++ .longPressEnded row ::
      (between ++ [.answerYes (listScreen.exec (.load currentUser) before).opened])))
    (shown : (listScreen.exec (.load currentUser) before).presenter.picks[row]? = some pressed) :
    DeletesPressed
        (listScreen.exec (.load currentUser)
          (before ++ .longPressEnded row :: between)).presenter pressed
        (listScreen.emits
          (listScreen.exec (.load currentUser) (before ++ .longPressEnded row :: between))
          (.answerYes (listScreen.exec (.load currentUser) before).opened)) ↔
      ∀ node, lastSnapshot between = some node →
        (decodedPicks ⟨accountReference currentUser, node⟩)[row]?.bind Pick.key =
          pressed.key := by
  let start := ListTableViewController.load currentUser
  let pressing := listScreen.exec start before
  let answering := listScreen.exec start (before ++ .longPressEnded row :: between)
  have split : answering = listScreen.exec (listScreen.next pressing (.longPressEnded row)) between :=
    listScreen.exec_append start before _
  have asked : (answering.confirmation? pressing.opened).isSome := by
    have regrouped : listScreen.Legal start
        ((before ++ .longPressEnded row :: between) ++ [.answerYes pressing.opened]) := by
      simpa using legal
    exact (EventSystem.Along.at listScreen regrouped).2
  have captured : Captured pressing.opened row answering := by
    rw [split]
    exact (fresh_exec currentUser before).captured_exec row between
  rw [emits_answerYes captured asked]
  obtain ⟨pressingBound, pressingRef⟩ := presenter_bound currentUser before
  obtain ⟨answeringBound, answeringRef⟩ :=
    presenter_bound currentUser (before ++ .longPressEnded row :: between)
  obtain ⟨key, pressedRef⟩ := pressingBound pressed (List.mem_of_getElem? shown)
  rw [pressingRef, ← answeringRef] at pressedRef
  rw [deletePick_deletes_pressed_iff answeringBound pressedRef]
  have last : answering.presenter = pressing.presenter.receive (lastSnapshot between) := by
    rw [split, presenter_exec]
    rfl
  change (answering.presenter.picks[row]?).bind Pick.key = pressed.key ↔ _
  rw [last]
  cases lastSnapshot between with
  | none =>
      have kept : pressing.presenter.picks[row]? = some pressed := shown
      simp [PicksPresenter.receive, kept]
  | some node =>
      simp only [Option.some.injEq, forall_eq', ← pressingRef]
      rfl

/-- "coffee" and "tea" are listed, in the rows 0 and 1. -/
def teaListed : List ListEvent :=
  [.snapshot (accountTree sampleUid (additionsTree sampleUid
    [("coffee", sampleCoordinate), ("tea", sampleCoordinate)]))]

def teaPick : Pick := listedPick sampleUid ⟨"tea", by decide⟩ "tea" sampleCoordinate

/-- The snapshot in between changes the row before and keeps that of "tea". -/
theorem confirmed_delete_iff_same_row :
    let between := [ListEvent.snapshot (accountTree sampleUid (additionsTree sampleUid
      [("bar", sampleCoordinate), ("tea", sampleCoordinate)]))]
    let start := ListTableViewController.load (some sampleUid)
    let answering := listScreen.exec start (teaListed ++ .longPressEnded 1 :: between)
    DeletesPressed answering.presenter teaPick
      (listScreen.emits answering (.answerYes (listScreen.exec start teaListed).opened)) := by
  intro between start answering
  have legal : listScreen.Legal start (teaListed ++ .longPressEnded 1 ::
      (between ++ [.answerYes (listScreen.exec start teaListed).opened])) := by
    decide +kernel
  have shown : (listScreen.exec start teaListed).presenter.picks[1]? = some teaPick := by
    decide +kernel
  refine (confirmed_delete_iff legal shown).mpr ?_
  intro node last
  cases last
  decide +kernel

/-- A pick that arrives above the pressed row moves another one into it, and that one
is deleted; if the pressed row is gone by then, the process ends. -/
theorem confirmed_delete_hits_other_row :
    let arrival := [ListEvent.snapshot (accountTree sampleUid (additionsTree sampleUid
      [("bar", sampleCoordinate), ("coffee", sampleCoordinate), ("tea", sampleCoordinate)]))]
    let start := ListTableViewController.load (some sampleUid)
    let answering := listScreen.exec start (teaListed ++ .longPressEnded 1 :: arrival)
    let emptied := listScreen.exec start
      (teaListed ++ .longPressEnded 1 :: [.snapshot FNode.emptyNode])
    listScreen.Legal start (teaListed ++ .longPressEnded 1 :: (arrival ++ [.answerYes 0])) ∧
      (listScreen.exec start teaListed).presenter.picks[1]? = some teaPick ∧
      ¬ DeletesPressed answering.presenter teaPick (listScreen.emits answering (.answerYes 0)) ∧
      listScreen.emits emptied (.answerYes 0) = [.error .indexOutOfRange] := by
  intro arrival start answering emptied
  refine ⟨by decide +kernel, by decide +kernel, ?_, ?_⟩
  · have captured : Captured 0 1 answering := by decide +kernel
    have bound := (presenter_bound (some sampleUid) (teaListed ++ .longPressEnded 1 :: arrival)).1
    have pressedRef : teaPick.ref =
        some (answering.presenter.ref.childKey ⟨"tea", by decide⟩) := by decide +kernel
    rw [emits_answerYes captured (by decide +kernel),
      deletePick_deletes_pressed_iff bound pressedRef]
    decide +kernel
  · have captured : Captured 0 1 emptied := by decide +kernel
    have gone : emptied.presenter.picks = [] := by decide +kernel
    rw [emits_answerYes captured (by decide +kernel)]
    simp [PicksPresenter.deletePick, gone]

end PicksOnMap.Guarantees
