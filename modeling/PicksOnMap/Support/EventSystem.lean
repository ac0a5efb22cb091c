import Mathlib.Data.List.Induction
import Mathlib.Tactic.Common

/-!
# Event systems

A deterministic handler for each event, the states in which an event may occur,
and what the handler emits. A run is a list of events; `Along` states a property
of every step of a run, and legality is the special case of `enabled`.
-/
namespace PicksOnMap.Support

structure EventSystem (σ ε ω : Type*) where
  enabled : σ → ε → Prop
  next : σ → ε → σ
  emits : σ → ε → List ω

namespace EventSystem

variable {σ ε ω : Type*} (M : EventSystem σ ε ω)

def exec (s : σ) (events : List ε) : σ := events.foldl M.next s

/-- `holds` at every step of the run, in the state the step starts from. -/
def Along (holds : σ → ε → Prop) : σ → List ε → Prop
  | _, [] => True
  | s, event :: rest => holds s event ∧ Along holds (M.next s event) rest

def Legal : σ → List ε → Prop := M.Along M.enabled

instance Along.decidable {holds : σ → ε → Prop} [∀ s event, Decidable (holds s event)] (s : σ)
    (events : List ε) : Decidable (M.Along holds s events) :=
  match events with
  | [] => isTrue trivial
  | event :: rest =>
      have : Decidable (M.Along holds (M.next s event) rest) :=
        Along.decidable (M.next s event) rest
      inferInstanceAs (Decidable (holds s event ∧ M.Along holds (M.next s event) rest))

instance Legal.decidable [∀ s event, Decidable (M.enabled s event)] (s : σ) (events : List ε) :
    Decidable (M.Legal s events) :=
  inferInstanceAs (Decidable (M.Along M.enabled s events))

/-- Everything emitted during a run, in order. -/
def outputs : σ → List ε → List ω
  | _, [] => []
  | s, event :: rest => M.emits s event ++ outputs (M.next s event) rest

@[simp] theorem exec_nil (s : σ) : M.exec s [] = s := rfl

@[simp] theorem exec_cons (s : σ) (event : ε) (rest : List ε) :
    M.exec s (event :: rest) = M.exec (M.next s event) rest := rfl

@[simp] theorem exec_append (s : σ) (before after : List ε) :
    M.exec s (before ++ after) = M.exec (M.exec s before) after :=
  List.foldl_append

theorem along_append {holds : σ → ε → Prop} {s : σ} {before after : List ε} :
    M.Along holds s (before ++ after) ↔
      M.Along holds s before ∧ M.Along holds (M.exec s before) after := by
  induction before generalizing s with
  | nil => simp [Along]
  | cons event rest ih => simp [Along, ih, and_assoc]

/-- Read a property of a run off at one of its steps. -/
theorem Along.at {holds : σ → ε → Prop} {s : σ} {before after : List ε} {event : ε}
    (run : M.Along holds s (before ++ event :: after)) : holds (M.exec s before) event :=
  ((M.along_append.mp run).2).1

theorem Along.before {holds : σ → ε → Prop} {s : σ} {before after : List ε}
    (run : M.Along holds s (before ++ after)) : M.Along holds s before :=
  (M.along_append.mp run).1

theorem Along.after {holds : σ → ε → Prop} {s : σ} {before after : List ε}
    (run : M.Along holds s (before ++ after)) : M.Along holds (M.exec s before) after :=
  (M.along_append.mp run).2

theorem Along.upTo {holds : σ → ε → Prop} {s : σ} {before after : List ε} {event : ε}
    (run : M.Along holds s (before ++ event :: after)) : M.Along holds s (before ++ [event]) := by
  rw [List.append_cons] at run
  exact Along.before M run

theorem Along.and {first second : σ → ε → Prop} {s : σ} {events : List ε}
    (run : M.Along first s events) (also : M.Along second s events) :
    M.Along (fun s event => first s event ∧ second s event) s events := by
  induction events generalizing s with
  | nil => trivial
  | cons event rest ih => exact ⟨⟨run.1, also.1⟩, ih run.2 also.2⟩

/-- A property of every step of a run, as one of every way to split the run at a step. -/
theorem along_iff_forall_split {holds : σ → ε → Prop} {s : σ} {events : List ε} :
    M.Along holds s events ↔ ∀ before event after, events = before ++ event :: after →
      holds (M.exec s before) event := by
  constructor
  · intro run before event after split
    subst split
    exact Along.at M run
  · intro each
    induction events using List.reverseRecOn with
    | nil => trivial
    | append_singleton past event ih =>
        have earlier : M.Along holds s past := by
          refine ih fun before step after split => each before step (after ++ [event]) ?_
          rw [split]
          simp
        have last : holds (M.exec s past) event := each past event [] rfl
        exact M.along_append.mpr ⟨earlier, last, trivial⟩

theorem along_of_forall {holds : ε → Prop} {events : List ε} (each : ∀ event ∈ events, holds event)
    (s : σ) : M.Along (fun _ event => holds event) s events := by
  induction events generalizing s with
  | nil => trivial
  | cons event rest ih =>
      exact ⟨each event List.mem_cons_self,
        ih (fun later member => each later (List.mem_cons_of_mem _ member)) _⟩

/-- What every step preserves, every run preserves. -/
theorem exec_invariant {inv : σ → Prop} (step : ∀ s event, inv s → inv (M.next s event)) {s : σ}
    (start : inv s) (events : List ε) : inv (M.exec s events) := by
  induction events generalizing s with
  | nil => exact start
  | cons event rest ih => exact ih (step s event start)

/-- An invariant of the steps of a run, each taken under `guard`, holds at its end. -/
theorem Along.invariant {guard : σ → ε → Prop} {inv : σ → Prop}
    (step : ∀ s event, inv s → guard s event → inv (M.next s event))
    {s : σ} {events : List ε} (start : inv s) (run : M.Along guard s events) :
    inv (M.exec s events) := by
  induction events generalizing s with
  | nil => exact start
  | cons event rest ih => exact ih (step s event start run.1) run.2

/-- Induction on a run from its start, with the history so far in hand. -/
theorem Along.history {guard : σ → ε → Prop} {inv : List ε → σ → Prop} {start : σ}
    (base : inv [] start)
    (step : ∀ past event, inv past (M.exec start past) → guard (M.exec start past) event →
      inv (past ++ [event]) (M.next (M.exec start past) event))
    {events : List ε} (run : M.Along guard start events) : inv events (M.exec start events) := by
  induction events using List.reverseRecOn with
  | nil => exact base
  | append_singleton past event ih =>
      have last : guard (M.exec start past) event := Along.at M run
      simpa using step past event (ih (Along.before M run)) last

theorem outputs_append (s : σ) (before after : List ε) :
    M.outputs s (before ++ after) = M.outputs s before ++ M.outputs (M.exec s before) after := by
  induction before generalizing s with
  | nil => rfl
  | cons event rest ih => simp [outputs, ih]

/-- A budget that every step pays its outputs from bounds the outputs of a run. -/
theorem outputs_length_le {guard : σ → ε → Prop} {budget : σ → Nat}
    (step : ∀ s event, guard s event →
      (M.emits s event).length + budget (M.next s event) ≤ budget s)
    {s : σ} {events : List ε} (run : M.Along guard s events) :
    (M.outputs s events).length ≤ budget s := by
  induction events generalizing s with
  | nil => simp [outputs]
  | cons event rest ih =>
      have paid := step s event run.1
      have later := ih run.2
      simp only [outputs, List.length_append]
      omega

end EventSystem

end PicksOnMap.Support
