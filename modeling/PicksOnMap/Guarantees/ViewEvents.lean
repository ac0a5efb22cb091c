import PicksOnMap.Guarantees.ViewChanges
import PicksOnMap.Source.SyncTree

/-!
# What the events of a view tell its listeners

Source pin: Pods/FirebaseDatabase, FView.m:78-112,135-218; FViewProcessor.m:129-226.

A listener knows only what its registration is told: the first events, and one change
for each child and perhaps a value for each operation. From these alone it has the
view's event node, through operations and other registrations in any order.
-/
namespace PicksOnMap.Source

open Support.SortedEntries

variable {K : Type} [LinearOrder K] [StringComparator K]

/-- A listener of all events: its own copy of the children, and the last value it got. -/
structure Listener (K : Type) where
  children : K → FNode K
  value : Option (FNode K)

namespace Listener

/-- A listener that was not told anything yet. -/
def new : Listener K := ⟨fun _ => .emptyNode, none⟩

def hear (changes : ChangeMap K) (value : Option (FNode K))
    (listener : Listener K) : Listener K where
  children := fun key =>
    match get? key changes with
    | some (.childRemoved _) => .emptyNode
    | some (.childAdded node) => node
    | some (.childChanged node _) => node
    | none => listener.children key
  value := value.or listener.value

/-- The listener's children are those of the event node; once the node is complete, its
last value is that node. -/
structure Knows (numbers : NumberEquality) (listener : Listener K) (eventSnap : FCacheNode K) :
    Prop where
  children : ∀ key, FNode.Alike numbers (listener.children key)
    (eventSnap.node.getImmediateChild key)
  value : eventSnap.isFullyInitialized = true →
    ∃ node, listener.value = some node ∧ node.WellFormed ∧
      FNode.Same numbers node eventSnap.node

omit [StringComparator K] in
theorem getImmediateChild_eq_get? {node : FNode K} (key : K) :
    node.getImmediateChild key = (get? key node.enumerated).getD .emptyNode := by
  cases node with
  | leaf value => rfl
  | children entries => rfl

omit [StringComparator K] in
/-- The first events give the whole event node. -/
theorem knows_initialEvents (numbers : NumberEquality) {view : FView K (Listener K)}
    (sound : view.viewCache.Sound) :
    Knows numbers (view.initialEvents hear new) view.viewCache.cachedEventSnap := by
  have told : ∀ key (entries : List (K × FNode K)),
      get? key (entries.map fun child => (child.1, FChange.childAdded child.2)) =
        (get? key entries).map FChange.childAdded := by
    intro key entries
    induction entries with
    | nil => rfl
    | cons entry rest ih =>
        simp only [List.map_cons, get?]
        split
        · rfl
        · exact ih
  refine ⟨fun key => ?_, fun complete => ?_⟩
  · unfold FView.initialEvents hear
    simp only [told]
    rw [getImmediateChild_eq_get?]
    cases get? key view.viewCache.cachedEventSnap.node.enumerated with
    | none => exact FNode.Alike.refl numbers _
    | some node => exact FNode.Alike.refl numbers _
  · refine ⟨view.viewCache.cachedEventSnap.node, ?_, sound.event, FNode.Same.refl numbers _⟩
    simp [FView.initialEvents, hear, complete]

end Listener

namespace FView

variable {numbers : NumberEquality}

/-- The caches are well formed, and every registration knows the event node. -/
structure Informed (numbers : NumberEquality) (view : FView K (Listener K)) : Prop where
  sound : view.viewCache.Sound
  registrations : ∀ registration ∈ view.eventRegistrations,
    registration.Knows numbers view.viewCache.cachedEventSnap

omit [StringComparator K] in
theorem initWithInitialViewCache_informed {viewCache : FViewCache K} (sound : viewCache.Sound) :
    (initWithInitialViewCache numbers viewCache : FView K (Listener K)).Informed numbers :=
  ⟨⟨sound.event, sound.server⟩, by simp [initWithInitialViewCache]⟩

omit [StringComparator K] in
theorem Informed.addEventRegistration {view : FView K (Listener K)}
    (informed : view.Informed numbers) :
    (view.addEventRegistration Listener.hear Listener.new).Informed numbers := by
  refine ⟨informed.sound, fun registration member => ?_⟩
  rcases List.mem_append.mp member with old | added
  · exact informed.registrations registration old
  · rw [List.mem_singleton.mp added]
    exact Listener.knows_initialEvents numbers informed.sound

omit [StringComparator K] in
theorem Informed.removeEventRegistration {view : FView K (Listener K)}
    (informed : view.Informed numbers)
    (isMatch : Option (Listener K → Bool)) :
    (view.removeEventRegistration isMatch).Informed numbers := by
  refine ⟨informed.sound, fun registration member => ?_⟩
  unfold FView.removeEventRegistration at member
  cases isMatch with
  | none => cases member
  | some isMatch => exact informed.registrations registration (List.mem_of_mem_filter member)

section Operation

variable {writes : FWriteTreeRef K} (canonical : writes.writeTree.visibleWrites.Canonical)
  {operation : FOperation K} (operationSound : operation.Sound) {serverCache : Option (FNode K)}
  (serverWf : ∀ node, serverCache = some node → node.WellFormed)
include canonical operationSound serverWf

/-- An operation is carried out: the accumulator does not raise. -/
theorem applyOperation_eq_some (numbers : NumberEquality) {R : Type}
    (fireEvents : ChangeMap K → Option (FNode K) → R → R) (view : FView K R)
    (sound : view.viewCache.Sound) :
    ∃ view', view.applyOperation numbers fireEvents operation writes serverCache = some view' ∧
      view'.viewCache.Sound ∧
      view'.viewCache = (FViewProcessor.updateCaches numbers view.viewCache operation writes
        serverCache).1 := by
  have evolves : FViewProcessor.Evolves numbers view.viewCache.cachedEventSnap.node
      (FViewProcessor.updateCaches numbers view.viewCache operation writes serverCache) :=
    FViewProcessor.updateCaches_evolves canonical sound operationSound serverWf
  obtain ⟨changes, tracked, -⟩ := evolves.leads _ [] (tracks_nil _)
  unfold FView.applyOperation FViewProcessor.applyOperationOn
  simp only [tracked, Option.map_some]
  exact ⟨_, rfl, evolves.sound, rfl⟩

theorem Informed.applyOperation {view view' : FView K (Listener K)}
    (informed : view.Informed numbers)
    (applied : view.applyOperation numbers Listener.hear operation writes serverCache =
      some view') : view'.Informed numbers := by
  have evolves : FViewProcessor.Evolves numbers view.viewCache.cachedEventSnap.node
      (FViewProcessor.updateCaches numbers view.viewCache operation writes serverCache) :=
    FViewProcessor.updateCaches_evolves canonical informed.sound operationSound serverWf
  obtain ⟨changes, tracked, tracks⟩ := evolves.leads _ [] (tracks_nil _)
  unfold FView.applyOperation FViewProcessor.applyOperationOn at applied
  simp only [tracked, Option.map_some, Option.some.injEq] at applied
  subst applied
  refine ⟨evolves.sound, fun registration member => ?_⟩
  obtain ⟨before, held, rfl⟩ := List.mem_map.mp member
  have known := informed.registrations before held
  refine ⟨fun key => ?_, fun complete => ?_⟩
  · have now := tracks key
    unfold Listener.hear
    dsimp only
    cases heard : get? key changes with
    | none =>
        rw [heard] at now
        exact (known.children key).trans now
    | some change =>
        rw [heard] at now
        cases change with
        | childRemoved node => exact alike_of_empty rfl now.2.1
        | childAdded node => exact now.2.2
        | childChanged node oldNode => exact now.2.2.1
  · unfold Listener.hear
    dsimp only
    cases added : FViewProcessor.maybeAddValue numbers view.viewCache
        (FViewProcessor.updateCaches numbers view.viewCache operation writes serverCache).1
        changes with
    | some node =>
        obtain rfl := FViewProcessor.maybeAddValue_complete added
        exact ⟨_, rfl, evolves.sound.event, FNode.Same.refl numbers _⟩
    | none =>
        obtain ⟨oldComplete, same⟩ := FViewProcessor.maybeAddValue_none informed.sound
          evolves.sound tracks complete added
        obtain ⟨node, last, wf, equal⟩ := known.value oldComplete
        exact ⟨node, last, wf, equal.trans same⟩

end Operation

/-! ## Any sequence of calls -/

inductive Call (K : Type) where
  | applyOperation (operation : FOperation K) (writes : FWriteTreeRef K)
      (serverCache : Option (FNode K))
  | addEventRegistration
  | removeEventRegistration (isMatch : Option (Listener K → Bool))

def Call.Sound : Call K → Prop
  | .applyOperation operation writes serverCache =>
      operation.Sound ∧ writes.writeTree.visibleWrites.Canonical ∧
        ∀ node, serverCache = some node → node.WellFormed
  | _ => True

def call (numbers : NumberEquality) (view : FView K (Listener K)) :
    Call K → Option (FView K (Listener K))
  | .applyOperation operation writes serverCache =>
      view.applyOperation numbers Listener.hear operation writes serverCache
  | .addEventRegistration => some (view.addEventRegistration Listener.hear Listener.new)
  | .removeEventRegistration isMatch => some (view.removeEventRegistration isMatch)

theorem Informed.call {view : FView K (Listener K)} (informed : view.Informed numbers)
    {step : Call K}
    (sound : step.Sound) :
    ∃ view', view.call numbers step = some view' ∧ view'.Informed numbers := by
  cases step with
  | applyOperation operation writes serverCache =>
      obtain ⟨operationSound, canonical, serverWf⟩ := sound
      obtain ⟨view', applied, -, -⟩ := applyOperation_eq_some canonical operationSound serverWf
        numbers Listener.hear view informed.sound
      exact ⟨view', applied, informed.applyOperation canonical operationSound serverWf applied⟩
  | addEventRegistration => exact ⟨_, rfl, informed.addEventRegistration⟩
  | removeEventRegistration isMatch => exact ⟨_, rfl, informed.removeEventRegistration isMatch⟩

theorem Informed.calls {view : FView K (Listener K)} (informed : view.Informed numbers)
    {steps : List (Call K)} (sound : ∀ step ∈ steps, step.Sound) :
    ∃ view', steps.foldlM (FView.call numbers) view = some view' ∧ view'.Informed numbers := by
  induction steps generalizing view with
  | nil => exact ⟨view, rfl, informed⟩
  | cons step rest ih =>
      obtain ⟨next, called, nextInformed⟩ := informed.call (sound step List.mem_cons_self)
      obtain ⟨last, run, lastInformed⟩ := ih nextInformed fun later member =>
        sound later (List.mem_cons_of_mem _ member)
      refine ⟨last, ?_, lastInformed⟩
      rw [List.foldlM_cons, called]
      exact run

section Samples

/-- Doubles by their bits. -/
def sampleNumbers : NumberEquality where
  isEqual := fun d e => decide (d.bits = e.bits)
  refl := by simp
  symm := by simp +contextual
  trans := by simp +contextual

/-- Nothing is known yet. -/
def sampleViewCache : FViewCache SampleKey :=
  ⟨⟨.emptyNode, false, false⟩, ⟨.emptyNode, false, false⟩⟩

/-- A listener comes, the server sends its data, and the removal that was pending above
it is rejected. -/
def sampleCalls : List (Call SampleKey) :=
  [.addEventRegistration,
    .applyOperation (.overwrite .server [] FWriteTree.sampleServer) ⟨[], FWriteTree.sampleWrites⟩
      none,
    .applyOperation (.ackUserWrite [sampleTea] true) ⟨[], FWriteTree.init⟩ none]

end Samples

end FView

end PicksOnMap.Source
