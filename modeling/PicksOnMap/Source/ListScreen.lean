import PicksOnMap.Source.PicksPresenter
import PicksOnMap.Support.EventSystem

/-!
# The list screen

Source pin: ListTableViewController.swift:19-24,88-107; UIAlertController+extension.swift:30-39;
PicksPresenter.swift:22-32,44-47. A long press that ends on a row opens a
confirmation that captures the row's number; `Yes` deletes by that number from the
list the presenter holds by then. Rows and picks are the same list, since every
snapshot reloads the table. A trap ends the process, and with it the run.
-/
namespace PicksOnMap.Source

open Support

/-- An open question, told apart by the order in which they were asked. -/
structure Confirmation where
  id : Nat
  row : Nat
  deriving DecidableEq

structure ListTableViewController where
  presenter : PicksPresenter
  confirmations : List Confirmation := []
  opened : Nat := 0
  terminated : Bool := false

inductive ListEvent where
  | snapshot (node : FNode Key)
  | longPressEnded (row : Nat)
  | answerNo (id : Nat)
  | answerYes (id : Nat)

namespace ListTableViewController

/-- After `viewDidLoad`. -/
def load (currentUser : Option Key) : ListTableViewController :=
  { presenter := PicksPresenter.create currentUser }

def confirmation? (list : ListTableViewController) (id : Nat) : Option Confirmation :=
  list.confirmations.find? fun confirmation => confirmation.id == id

def close (list : ListTableViewController) (id : Nat) : ListTableViewController :=
  { list with confirmations := list.confirmations.filter fun confirmation => confirmation.id != id }

def handle (list : ListTableViewController) :
    ListEvent → ListTableViewController × List (Except Trap (Option DatabaseWrite))
  | .snapshot node =>
      ({ list with presenter := list.presenter.handleSnapshot ⟨list.presenter.ref, node⟩ }, [])
  | .longPressEnded row =>
      ({ list with
          confirmations := list.confirmations ++ [⟨list.opened, row⟩]
          opened := list.opened + 1 }, [])
  | .answerNo id => (list.close id, [])
  | .answerYes id =>
      match list.confirmation? id with
      | none => (list, [])
      | some confirmation =>
          match list.presenter.deletePick confirmation.row with
          | .error trap => ({ list.close id with terminated := true }, [.error trap])
          | .ok write => (list.close id, [.ok write])

def Enabled (list : ListTableViewController) (event : ListEvent) : Prop :=
  list.terminated = false ∧
    match event with
    | .snapshot _ => True
    | .longPressEnded row => row < list.presenter.picks.length
    | .answerNo id | .answerYes id => (list.confirmation? id).isSome

instance (list : ListTableViewController) (event : ListEvent) : Decidable (list.Enabled event) :=
  match event with
  | .snapshot _ => inferInstanceAs (Decidable (_ ∧ True))
  | .longPressEnded _ => inferInstanceAs (Decidable (_ ∧ _ < _))
  | .answerNo _ => inferInstanceAs (Decidable (_ ∧ _ = true))
  | .answerYes _ => inferInstanceAs (Decidable (_ ∧ _ = true))

end ListTableViewController

/-- What is emitted is what the answers do: a trap, or the write that is sent. -/
def listScreen :
    EventSystem ListTableViewController ListEvent (Except Trap (Option DatabaseWrite)) where
  enabled := ListTableViewController.Enabled
  next list event := (list.handle event).1
  emits list event := (list.handle event).2

instance (list : ListTableViewController) (event : ListEvent) :
    Decidable (listScreen.enabled list event) :=
  inferInstanceAs (Decidable (list.Enabled event))

/-! ## The presenter during a run -/

def lastSnapshot : List ListEvent → Option (FNode Key)
  | [] => none
  | .snapshot node :: rest => some ((lastSnapshot rest).getD node)
  | .longPressEnded _ :: rest | .answerNo _ :: rest | .answerYes _ :: rest => lastSnapshot rest

theorem presenter_next (list : ListTableViewController) (event : ListEvent) :
    (listScreen.next list event).presenter =
      match event with
      | .snapshot node => list.presenter.handleSnapshot ⟨list.presenter.ref, node⟩
      | _ => list.presenter := by
  cases event with
  | snapshot node => rfl
  | longPressEnded row => rfl
  | answerNo id => rfl
  | answerYes id =>
      simp only [listScreen, ListTableViewController.handle]
      cases list.confirmation? id with
      | none => rfl
      | some confirmation =>
          simp only
          cases list.presenter.deletePick confirmation.row <;> rfl

def PicksPresenter.receive (presenter : PicksPresenter) : Option (FNode Key) → PicksPresenter
  | none => presenter
  | some node => presenter.handleSnapshot ⟨presenter.ref, node⟩

/-- Only snapshots change the presenter, and only the last one counts. -/
theorem presenter_exec (list : ListTableViewController) (events : List ListEvent) :
    (listScreen.exec list events).presenter = list.presenter.receive (lastSnapshot events) := by
  induction events generalizing list with
  | nil => rfl
  | cons event rest ih =>
      rw [EventSystem.exec_cons, ih, presenter_next]
      cases event with
      | snapshot node =>
          cases hrest : lastSnapshot rest <;>
            simp [lastSnapshot, hrest, PicksPresenter.receive, PicksPresenter.handleSnapshot]
      | longPressEnded row => rfl
      | answerNo id => rfl
      | answerYes id => rfl

end PicksOnMap.Source
