import PicksOnMap.Source.Pick
import PicksOnMap.Support.EventSystem

/-!
# Long presses on the map

Source pin: MapViewController.swift:35,106-119; LongPressable.swift:15-20;
UIAlertController+extension.swift:12-28. One recogniser is installed, for a continuous
gesture: it calls `handleLongPress` when the gesture begins, whenever the finger moves,
and when it ends or is cancelled. The check of the recogniser's state is commented out,
so every call asks for a name, with the coordinate under the finger at that moment
captured for the answer. UIKit ignores a prompt that is presented over another one.
-/
namespace PicksOnMap.Source

open Support

/-- `UIGestureRecognizer.State`, as far as the action is called with it. -/
inductive GestureState where
  | began
  | changed
  | ended
  | cancelled
  deriving DecidableEq, Repr

/-- A prompt on screen. Its completion captured the coordinate; which gesture it stems
from, and in which state of it, is kept for the statements. -/
structure Prompt where
  gesture : Nat
  presentedIn : GestureState
  coordinate : CLLocationCoordinate2D
  deriving DecidableEq

/-- `gestures` counts those begun so far, so it is the number of the latest. -/
structure MapLongPress where
  gestures : Nat := 0
  pressing : Bool := false
  prompt : Option Prompt := none
  deriving DecidableEq

inductive PressEvent where
  | recognizer (state : GestureState) (coordinate : CLLocationCoordinate2D)
  | ok (text : String)
  | cancel

inductive PressAction where
  | presented (prompt : Prompt)
  | dismissed (prompt : Prompt)
  | addNewPick (gesture : Nat) (name : String) (coordinate : CLLocationCoordinate2D)
  deriving DecidableEq

namespace MapLongPress

def initial : MapLongPress := {}

/-- The recogniser moves on to `state`. -/
def recognized (press : MapLongPress) : GestureState → MapLongPress
  | .began => { press with gestures := press.gestures + 1, pressing := true }
  | .changed => press
  | .ended | .cancelled => { press with pressing := false }

/-- `present(_:animated:completion:)` -/
def present (press : MapLongPress) (prompt : Prompt) : MapLongPress × List PressAction :=
  match press.prompt with
  | some _ => (press, [])
  | none => ({ press with prompt := some prompt }, [.presented prompt])

def handleLongPress (press : MapLongPress) (state : GestureState)
    (coordinate : CLLocationCoordinate2D) : MapLongPress × List PressAction :=
  press.present ⟨press.gestures, state, coordinate⟩

def handle (press : MapLongPress) : PressEvent → MapLongPress × List PressAction
  | .recognizer state coordinate => (press.recognized state).handleLongPress state coordinate
  | .ok text =>
      match press.prompt with
      | none => (press, [])
      | some prompt =>
          ({ press with prompt := none }, [.addNewPick prompt.gesture text prompt.coordinate])
  | .cancel =>
      match press.prompt with
      | none => (press, [])
      | some prompt => ({ press with prompt := none }, [.dismissed prompt])

def Enabled (press : MapLongPress) : PressEvent → Prop
  | .recognizer .began _ => press.pressing = false
  | .recognizer _ _ => press.pressing = true
  | .ok _ | .cancel => press.prompt.isSome

instance (press : MapLongPress) (event : PressEvent) : Decidable (press.Enabled event) :=
  match event with
  | .recognizer .began _ => inferInstanceAs (Decidable (_ = _))
  | .recognizer .changed _ | .recognizer .ended _ | .recognizer .cancelled _ =>
      inferInstanceAs (Decidable (_ = _))
  | .ok _ | .cancel => inferInstanceAs (Decidable (_ = true))

end MapLongPress

def mapLongPress : EventSystem MapLongPress PressEvent PressAction where
  enabled := MapLongPress.Enabled
  next press event := (press.handle event).1
  emits press event := (press.handle event).2

instance (press : MapLongPress) (event : PressEvent) :
    Decidable (mapLongPress.enabled press event) :=
  inferInstanceAs (Decidable (press.Enabled event))

end PicksOnMap.Source
