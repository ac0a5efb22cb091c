import PicksOnMap.Guarantees.AccountHistory
import PicksOnMap.Source.StoredAccount

/-!
# Which call a listed pick comes from

Source pin: PicksPresenter.swift:22-47; Model/Pick.swift:26-46; Pods/FirebaseDatabase,
FChildrenNode.m:113-142, FLeafNode.m:99-123.

The log of the calls by slots decides what a pick shows, so its fields are those of one
addition. The key it is listed under is the one its slot is stored under, and that key
may be another spelling of the addition's: a tree keeps the key it has for a new pick,
an array takes the key of a later addition below an old one. As long as no addition does
either, every listed pick is a single write of the history
(`Run.listed_pick_single_write`).
-/
namespace PicksOnMap.Guarantees

open Source Support Support.SortedEntries

/-! ## One call on the stored account -/

theorem writeOf_call (call : Call) :
    FNode.writeOf (call.path.map Key.slot)
      ((FStoredNode.ofNode call.node).toNode Key.slot) = effect Key.slot call := by
  cases call with
  | addNewPick name coordinate =>
      unfold effect
      dsimp only
      rw [← leafAt_pickNode separatesFields_slot]
      rfl
  | deletePick key => rfl

/-- The leaves by slots follow the log of the calls. -/
theorem leaves_apply (uid : Key) (root : FStoredNode) (call : Call) :
    Stored.leaves uid (Stored.apply (call.write uid) root) =
      (effect Key.slot call).apply (Stored.leaves uid root) := by
  unfold Stored.leaves
  rw [Stored.accountTree_apply, FStoredNode.toNode_updateChild (FStoredNode.tellsAlong_slot _ _),
    FNode.leafAt_updateChild, writeOf_call]

theorem wellFormed_callNode (call : Call) : (FStoredNode.ofNode call.node).WellFormed := by
  cases call with
  | addNewPick name coordinate =>
      refine .children ?_ ?_ ?_
      · simp only [FStoredNode.ofEntries, FStoredNode.toEntries, Sorted, List.pairwise_cons,
          List.mem_cons, forall_eq_or_imp, List.not_mem_nil, false_implies, implies_true, and_true,
          List.Pairwise.nil]
        exact ⟨⟨by decide, by decide⟩, by decide⟩
      · simp [FStoredNode.ofEntries, FStoredNode.ofNode, FStoredNode.toEntries, FStoredNode.toNode,
          FNode.isEmpty]
      · simp [FStoredNode.ofEntries, FStoredNode.ofNode, FStoredNode.toEntries, FStoredNode.toNode,
          FNode.WellFormed.leaf]
  | deletePick key => exact FStoredNode.wellFormed_emptyNode

theorem wellFormed_apply {root : FStoredNode} (wf : root.WellFormed) (uid : Key) (call : Call) :
    (Stored.apply (call.write uid) root).WellFormed :=
  wf.updateChild (wellFormed_callNode call) _

theorem wellFormed_accountTree {root : FStoredNode} (wf : root.WellFormed) (uid : Key) :
    (Stored.accountTree uid root).WellFormed := by
  rw [Stored.single_child]
  exact wf.getImmediateChild uid

theorem Run.wellFormed {uid : Key} {Meets : FStoredNode → Call → Prop} {history : List Call}
    {root : FStoredNode} (run : Stored.Run uid Meets history root) : root.WellFormed := by
  induction run with
  | empty => exact FStoredNode.wellFormed_emptyNode
  | call _ _ issued _ ih _ =>
      rw [issued.write_eq]
      exact wellFormed_apply ih uid _

theorem Run.accountTree_wellFormed {uid : Key} {Meets : FStoredNode → Call → Prop}
    {history : List Call} {root : FStoredNode} (run : Stored.Run uid Meets history root) :
    (Stored.accountTree uid root).WellFormed :=
  wellFormed_accountTree (Run.wellFormed run) uid

/-- The runs refine the replay of their histories, by slots. -/
theorem Run.leaves_eq_replay {uid : Key} {Meets : FStoredNode → Call → Prop}
    {history : List Call} {root : FStoredNode} (run : Stored.Run uid Meets history root) :
    Stored.leaves uid root = LeafMap.replay (history.map (effect Key.slot)) := by
  induction run with
  | empty =>
      funext path
      exact FNode.leafAt_emptyNode path
  | call _ _ issued _ ih _ =>
      rw [issued.write_eq, leaves_apply, ih]
      simp [LeafMap.replay]

/-- An addition below `front` decides the key of one slot. -/
theorem keyIn_addition {uid : Key} {root : FStoredNode}
    (wf : (Stored.accountTree uid root).WellFormed) {name : String}
    (coordinate : CLLocationCoordinate2D) {front : Key} {rest : FPath Key}
    (resolves : pathPieces name = front :: rest) (slot : KeySlot) :
    (Stored.accountTree uid
        (Stored.apply ((Call.addNewPick name coordinate).write uid) root)).keyIn slot =
      if slot = front.slot then some ((Stored.accountTree uid root).keyPut front)
      else (Stored.accountTree uid root).keyIn slot := by
  have path : (Call.addNewPick name coordinate).path = front :: rest := resolves
  rw [Stored.accountTree_apply_cons uid root path]
  exact wf.keyIn_updateImmediateChild front (FStoredNode.isEmpty_updateChild _ _ rfl) slot

/-- An addition of a child to a full array makes a tree of it. -/
theorem isTree_addition {uid : Key} {root : FStoredNode} {name : String}
    (coordinate : CLLocationCoordinate2D) {front : Key} {rest : FPath Key}
    (resolves : pathPieces name = front :: rest) :
    (Stored.accountTree uid
        (Stored.apply ((Call.addNewPick name coordinate).write uid) root)).isTree =
      ((Stored.accountTree uid root).isTree ||
        (((Stored.accountTree uid root).keyIn front.slot).isNone &&
          decide (arrayToTreeThreshold ≤ (Stored.accountTree uid root).keys.length))) := by
  have path : (Call.addNewPick name coordinate).path = front :: rest := resolves
  rw [Stored.accountTree_apply_cons uid root path]
  exact FStoredNode.isTree_updateImmediateChild _ front (FStoredNode.isEmpty_updateChild _ _ rfl)

/-- A deletion frees one slot. -/
theorem keyIn_deletion (uid : Key) (root : FStoredNode) (key : Key) (slot : KeySlot) :
    (Stored.accountTree uid (Stored.apply ((Call.deletePick key).write uid) root)).keyIn slot =
      if slot = key.slot then none else (Stored.accountTree uid root).keyIn slot := by
  rw [Stored.accountTree_deletion]
  exact FStoredNode.keyIn_removed _ key rfl slot

theorem isTree_deletion {uid : Key} {root : FStoredNode} {key other : Key} {slot : KeySlot}
    (left : (Stored.accountTree uid root).keyIn slot = some other) (apart : slot ≠ key.slot) :
    (Stored.accountTree uid (Stored.apply ((Call.deletePick key).write uid) root)).isTree =
      (Stored.accountTree uid root).isTree := by
  rw [Stored.accountTree_deletion]
  exact FStoredNode.isTree_removed rfl left apart

/-! ## The key of a listed pick -/

/-- The addition goes through a child stored under another spelling of its key, and a pick
is found under the other's key afterwards: a tree keeps the stored key for a new pick, an
array takes the new key for an old one. -/
def Respells (uid : Key) (root : FStoredNode) : Call → Prop
  | .addNewPick name _ => ∃ front rest stored, pathPieces name = front :: rest ∧
      (Stored.accountTree uid root).keyIn front.slot = some stored ∧ stored ≠ front ∧
      ((Stored.accountTree uid root).isTree = true ↔ rest = [])
  | .deletePick _ => False

/-- Only an integer has another spelling in its slot. -/
theorem not_respells_of_not_integer {uid : Key} {root : FStoredNode} {name : String}
    (text : ∀ front ∈ (pathPieces name).head?, tryParseStringToInt front.text = none)
    (coordinate : CLLocationCoordinate2D) : ¬ Respells uid root (.addNewPick name coordinate) := by
  intro respelled
  obtain ⟨front, rest, stored, resolves, held, apart, _⟩ := respelled
  have notInteger := text front (by rw [resolves]; rfl)
  exact apart (Key.eq_of_slot_eq notInteger (FStoredNode.slot_of_keyIn held))

/-- Every pick that is shown has a title that resolves to the key it is stored under. -/
def TitledByKey (uid : Key) (root : FStoredNode) : Prop :=
  ∀ key title coordinate, (Stored.accountTree uid root).keyIn key.slot = some key →
    Shows Key.slot (Stored.leaves uid root) key.slot title coordinate → pathPieces title = [key]

/-- What is shown is stored. -/
theorem exists_keyIn_of_shows {uid : Key} {root : FStoredNode} {slot : KeySlot} {title : String}
    {coordinate : CLLocationCoordinate2D}
    (shows : Shows Key.slot (Stored.leaves uid root) slot title coordinate) :
    ∃ key, (Stored.accountTree uid root).keyIn slot = some key ∧ key.slot = slot := by
  cases stored : (Stored.accountTree uid root).keyIn slot with
  | some key => exact ⟨key, rfl, FStoredNode.slot_of_keyIn stored⟩
  | none =>
      have held := shows.title
      unfold Stored.leaves at held
      rw [FNode.leafAt_cons, FStoredNode.getImmediateChild_of_keyIn_none stored,
        FNode.leafAt_emptyNode] at held
      cases held

/-- A call that hits no field below a slot and does not replace it goes past it or deeper. -/
theorem not_hits_deletion {deleted : Key} {slot : KeySlot} (apart : slot ≠ deleted.slot) :
    ¬ HitsSeen Key.slot (Call.deletePick deleted).path slot := by
  intro hit
  obtain above | ⟨field, _, below⟩ := hit
  · exact apart (List.cons_prefix_cons.mp above).1.symm
  · have := below.length_le
    simp [Call.path] at this

theorem TitledByKey.call {uid : Key} {root : FStoredNode}
    (wf : (Stored.accountTree uid root).WellFormed) (titled : TitledByKey uid root) {call : Call}
    (clear : ¬ Respells uid root call) :
    TitledByKey uid (Stored.apply (call.write uid) root) := by
  intro key title coordinate stored shows
  rw [leaves_apply] at shows
  cases call with
  | deletePick deleted =>
      rw [keyIn_deletion] at stored
      split at stored
      · cases stored
      · next apart =>
          exact titled key title coordinate stored
            ((shows_after_miss _ _ (not_hits_deletion apart)).mp shows)
  | addNewPick name place =>
      by_cases hit : HitsSeen Key.slot (Call.addNewPick name place).path key.slot
      · -- the pick is the one that is added
        obtain ⟨_, same, single⟩ := shows_after_hit _ _ hit shows
        cases same
        obtain ⟨front, resolves, at_slot⟩ := List.map_eq_singleton_iff.mp single
        rw [keyIn_addition wf place resolves, if_pos at_slot.symm, FStoredNode.keyPut] at stored
        rw [resolves]
        split at stored
        · next held held_eq =>
            split at stored
            · next tree =>
                by_contra apart
                refine clear
                  ⟨front, [], held, resolves, held_eq, fun equal => apart ?_, by simp [tree]⟩
                cases stored
                rw [equal]
            · cases stored
              rfl
        · cases stored
          rfl
      · -- the pick was there before
        have before := (shows_after_miss _ _ hit).mp shows
        cases resolves : pathPieces name with
        | nil => exact absurd (.inl (by simp [Call.path, resolves])) hit
        | cons front rest =>
            rw [keyIn_addition wf place resolves] at stored
            split at stored
            · next at_slot =>
                obtain ⟨held, held_eq, held_slot⟩ := exists_keyIn_of_shows before
                have single := titled held title coordinate (by rw [held_slot, held_eq])
                  (by rw [held_slot]; exact before)
                rw [single]
                rw [at_slot] at held_eq
                simp only [FStoredNode.keyPut, held_eq] at stored
                split at stored
                · cases stored
                  rfl
                · next array =>
                    cases stored
                    by_contra apart
                    refine clear ⟨_, rest, held, resolves, held_eq, fun equal => apart ?_, ?_⟩
                    · rw [equal]
                    · refine ⟨fun tree => absurd tree array, fun short => absurd (.inl ?_) hit⟩
                      simp [Call.path, resolves, short]
            · exact titled key title coordinate stored before

/-- All that `pick` shows are the values of one addition of the history, and no
later call resolves to its key. -/
def SingleWrite (history : List Call) (pick : Pick) : Prop :=
  ∃ key title before after, pick.key = some key ∧ pick.title = some title ∧
    pathPieces title = [key] ∧
    history = before ++ .addNewPick title pick.coordinate :: after ∧
    ∀ later ∈ after, later.path ≠ [key]

theorem Run.titledByKey {uid : Key} {history : List Call} {root : FStoredNode}
    (run : Stored.Run uid (fun root call => ¬ Respells uid root call) history root) :
    TitledByKey uid root := by
  induction run with
  | empty =>
      intro key title coordinate stored
      cases stored
  | call before _ issued clear ih _ =>
      rw [issued.write_eq]
      exact ih.call (Run.accountTree_wellFormed before) clear

/-- In a run without an addition that respells a child, listed picks are never put together
from several additions, and no title is listed twice. -/
theorem Run.listed_pick_single_write {uid : Key} {history : List Call} {root : FStoredNode}
    (run : Stored.Run uid (fun root call => ¬ Respells uid root call) history root) :
    (∀ pick ∈ Stored.listedPicks uid root, SingleWrite history pick) ∧
      ((Stored.listedPicks uid root).map Pick.title).Nodup := by
  have wf := Run.accountTree_wellFormed run
  have titled := Run.titledByKey run
  refine ⟨fun pick listed => ?_, ?_⟩
  · obtain ⟨key, title, coordinate, stored, shows, rfl⟩ :=
      (Stored.mem_listedPicks wf pick).mp listed
    have single := titled key title coordinate stored shows
    rw [Run.leaves_eq_replay run] at shows
    obtain ⟨before, after, split, _, last⟩ := shows_source separatesFields_slot shows
    refine ⟨key, title, before, after, key_listedPick _ _ _ _, rfl, single, split, ?_⟩
    intro later member at_key
    exact last later member (by rw [at_key]; rfl)
  · refine List.pairwise_map.mpr ((Stored.listedPicks_sorted wf).imp_of_mem ?_)
    intro earlier later earlierListed laterListed ordered same
    obtain ⟨low, high, hlow, hhigh, less⟩ := ordered
    obtain ⟨key, title, place, stored, shows, rfl⟩ :=
      (Stored.mem_listedPicks wf earlier).mp earlierListed
    obtain ⟨key', title', place', stored', shows', rfl⟩ :=
      (Stored.mem_listedPicks wf later).mp laterListed
    have titles : title = title' := by simpa [listedPick] using same
    have keys : [key] = [key'] := by
      rw [← titled key title place stored shows, ← titled key' title' place' stored' shows', titles]
    simp only [key_listedPick, Option.some.injEq] at hlow hhigh
    subst hlow hhigh
    cases keys
    exact less.false

/-- A child added below "bar" afterwards, and a field of "tea" overwritten: "bar" is listed
with the values of its addition. -/
theorem listed_pick_single_write_child_added :
    let additions := [("bar", sampleCoordinate), ("bar/photo", sampleCoordinate),
      ("tea", sampleCoordinate), ("/tea/title", sampleCoordinate)]
    let list := Stored.listedPicks sampleUid (Stored.additionsTree sampleUid additions)
    list.map Pick.title = [some "bar"] ∧
      (∀ pick ∈ list, SingleWrite (additionCalls additions) pick) ∧
      (list.map Pick.title).Nodup := by
  intro additions list
  refine ⟨by decide +kernel, Run.listed_pick_single_write
    (Stored.Run.additions additions (by decide) fun addition member root => ?_)⟩
  refine not_respells_of_not_integer ?_ addition.2
  revert addition member
  decide

/-- The pick "-0" is listed under the key of the photo added below "00". -/
theorem listed_pick_respelled :
    let additions := [("-0", sampleCoordinate), ("00/photo", sampleCoordinate)]
    let root := Stored.additionsTree sampleUid additions
    Stored.Reachable sampleUid (additionCalls additions) root ∧
      ¬ ∀ pick ∈ Stored.listedPicks sampleUid root,
        SingleWrite (additionCalls additions) pick := by
  intro additions root
  refine ⟨Stored.Run.additions additions (by decide) fun _ _ _ => trivial, fun single => ?_⟩
  have listed : listedPick sampleUid ⟨"00", by decide⟩ "-0" sampleCoordinate ∈
      Stored.listedPicks sampleUid root := by
    decide +kernel
  obtain ⟨key, title, _, _, keyed, titled, resolves, _⟩ := single _ listed
  rw [key_listedPick, Option.some.injEq] at keyed
  subst keyed
  cases titled
  revert resolves
  decide

/-! ## The exact keys -/

/-- No other account than `uid` is ever stored. -/
theorem Run.keys_root {uid : Key} {Meets : FStoredNode → Call → Prop} {history : List Call}
    {root : FStoredNode} (run : Stored.Run uid Meets history root) :
    ∀ key ∈ root.keys, key = uid := by
  have kept : ∀ slot key, root.keyIn slot = some key → key = uid := by
    induction run with
    | empty =>
        intro slot key held
        cases held
    | @call _ _ root _ call _ before _ issued _ ih _ =>
        intro slot key held
        rw [issued.write_eq] at held
        change (root.updateChild (uid :: call.path) (FStoredNode.ofNode call.node)).keyIn slot = _
          at held
        rw [FStoredNode.updateChild_cons uid call.path (Stored.pruned_ofNode call)] at held
        cases empty : ((root.getImmediateChild uid).updateChild call.path
            (FStoredNode.ofNode call.node)).isEmpty with
        | true =>
            change (root.updateImmediateChild uid _).keyIn slot = _ at held
            rw [FStoredNode.keyIn_removed root uid empty] at held
            split at held
            · cases held
            · exact ih slot key held
        | false =>
            change (root.updateImmediateChild uid _).keyIn slot = _ at held
            rw [(Run.wellFormed before).keyIn_updateImmediateChild uid empty] at held
            split at held
            · rw [FStoredNode.keyPut] at held
              split at held
              · next stored found =>
                  split at held
                  · cases held
                    exact ih _ _ found
                  · cases held
                    rfl
              · cases held
                rfl
            · exact ih slot key held
  exact fun key member => kept key.slot key (((Run.wellFormed run).mem_keys_iff key).mp member)

theorem Run.accountTree_toNode {uid : Key} {Meets : FStoredNode → Call → Prop}
    {history : List Call} {root : FStoredNode} (run : Stored.Run uid Meets history root) :
    (Stored.accountTree uid root).toNode id = accountTree uid (root.toNode id) := by
  have tells : FStoredNode.Tells id uid root.entries := FStoredNode.tells_id fun entry member _ =>
    (Run.keys_root run entry.1 (List.mem_map_of_mem member)).symm
  rw [Stored.single_child, FStoredNode.toNode_getImmediateChild tells]
  unfold accountTree
  change _ = (root.toNode id).getChild [uid]
  rw [FNode.getChild_cons]
  change (root.toNode id).getImmediateChild uid = _
  generalize (root.toNode id).getImmediateChild uid = child
  unfold FNode.getChild
  rfl

/-- A run whose writes tell the keys along their paths apart as exact texts do is a run over
the nodes with exact keys. -/
theorem Run.toNode_reachable {uid : Key} {history : List Call} {root : FStoredNode}
    (run : Stored.Run uid (fun root call => FStoredNode.TellsAlong id root
      ((accountReference (some uid)).path ++ call.path)) history root) :
    Reachable uid history (root.toNode id) := by
  induction run with
  | empty => exact .empty
  | @call _ _ root past call write before listed issued tells ih ihListed =>
      have applied : (Stored.apply (call.write uid) root).toNode id =
          (call.write uid).apply (root.toNode id) := by
        change (root.updateChild ((accountReference (some uid)).path ++ call.path)
          (FStoredNode.ofNode call.node)).toNode id = _
        rw [FStoredNode.toNode_updateChild tells, List.map_id]
        cases call with
        | addNewPick name coordinate => rw [Call.node, toNode_ofNode_pickNode]; rfl
        | deletePick key => rfl
      have snapshot : Stored.accountSnapshot uid past = accountSnapshot uid (past.toNode id) := by
        unfold Stored.accountSnapshot accountSnapshot
        rw [Run.accountTree_toNode listed]
      have sent : Issued uid (past.toNode id) call write := by
        cases issued with
        | addNewPick client accepted => exact .addNewPick client accepted
        | deletePick asked at_key =>
            unfold Stored.presenterAt at asked
            rw [snapshot] at asked
            exact .deletePick asked at_key
      rw [issued.write_eq] at sent ⊢
      rw [applied]
      exact ih.call ihListed sent

end PicksOnMap.Guarantees
