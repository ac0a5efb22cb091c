import PicksOnMap.Guarantees.StoredHistory

/-!
# Deleting a listed pick

Source pin: PicksPresenter.swift:22-32,44-47; Model/Pick.swift:26-38;
Pods/FirebaseDatabase, FIRDataSnapshot.m:90-95, FChildrenNode.m:113-142. The row number
is a position in the decoded list, the write goes to a key of the undecoded tree. What
connects them is the reference that every decoded pick carries (`decodedPicks_ref`). The
removal takes away whatever child `compareKey` finds under that key (`entries_deletion`):
in a newer tree it may be stored under another spelling, which is the one case in which
the deletion takes more than the chosen pick (`Reachable.deletes_chosen_pick_iff`).
-/
namespace PicksOnMap.Guarantees

open Source Support Support.SortedEntries

/-- The children that are left are those in the other slots. -/
theorem entries_deletion (uid key : Key) (root : FStoredNode) :
    (Stored.accountTree uid (Stored.apply ((Call.deletePick key).write uid) root)).entries =
      FStoredNode.removeObjectForKey key (Stored.accountTree uid root).entries := by
  rw [Stored.accountTree_deletion]
  cases Stored.accountTree uid root with
  | leaf value => rfl
  | children representation entries =>
      simp only [FStoredNode.updateImmediateChild,
        show FStoredNode.emptyNode.isEmpty = true from rfl, ↓reduceIte]
      split
      · next none => exact (List.isEmpty_iff.mp none).symm
      · rfl

theorem removeObjectForKey_eq_remove {V : Type} {key : Key} {entries : List (Key × V)}
    (exact : ∀ entry ∈ entries, compareKey key.text entry.1.text = .eq → entry.1 = key) :
    FStoredNode.removeObjectForKey key entries = remove key entries := by
  refine List.filter_congr fun entry member => ?_
  by_cases same : entry.1 = key
  · simp [same, (compareKey_eq_eq_iff key key).mpr rfl]
  · simp [same, mt (exact entry member) same]

/-- The list loses the entry of the key, if there is one, and nothing else. -/
theorem listedPicks_deletion {uid key : Key} {root : FStoredNode}
    (exact : ∀ entry ∈ (Stored.accountTree uid root).entries,
      compareKey key.text entry.1.text = .eq → entry.1 = key) :
    Stored.listedPicks uid (Stored.apply ((Call.deletePick key).write uid) root) =
      (Stored.listedPicks uid root).filter fun pick => pick.key ≠ some key := by
  rw [Stored.listedPicks_eq, Stored.listedPicks_eq, entries_deletion,
    removeObjectForKey_eq_remove exact]
  refine filterMap_remove key _ (fun slot (node : FStoredNode) =>
    Pick.init? ⟨(accountReference (some uid)).childKey slot, node.toNode id⟩) _ ?_
  intro slot node pick hread
  simp [key_of_init? hread]

/-- A deletion asked for on any list of the account, applied to any tree the account has by
then, takes the chosen pick away and leaves every other entry of the list and every other
child of the account as they are, exactly when no child is stored by then under another
spelling of its key that `compareKey` takes for the same. -/
theorem Reachable.deletes_chosen_pick_iff {uid : Key} {history : List Call} {root : FStoredNode}
    (reachable : Stored.Reachable uid history root) {presenter : PicksPresenter}
    (client : presenter.ref = accountReference (some uid)) (node : FNode Key) {index : Nat}
    {pick : Pick}
    (chosen : (presenter.handleSnapshot ⟨presenter.ref, node⟩).picks[index]? = some pick) :
    (∃ key child write,
      child ∈ (DataSnapshot.mk presenter.ref node).children ∧ Pick.init? child = some pick ∧
      child.ref = presenter.ref.childKey key ∧ pick.ref = some child.ref ∧ pick.key = some key ∧
      (presenter.handleSnapshot ⟨presenter.ref, node⟩).deletePick index = .ok (some write) ∧
      Stored.listedPicks uid (Stored.apply write root) =
        (Stored.listedPicks uid root).filter (fun other => other.key ≠ some key) ∧
      (∀ other, other ≠ key →
        get? other (Stored.accountTree uid (Stored.apply write root)).entries =
          get? other (Stored.accountTree uid root).entries) ∧
      (Stored.apply write root).WellFormed) ↔
      ∀ key, pick.key = some key → ∀ stored ∈ (Stored.accountTree uid root).keys,
        compareKey key.text stored.text = .eq → stored = key := by
  have listed : pick ∈ decodedPicks ⟨presenter.ref, node⟩ := List.mem_of_getElem? chosen
  obtain ⟨key, child, inside, hread, at_key, refers⟩ := decodedPicks_ref listed
  have sent : (presenter.handleSnapshot ⟨presenter.ref, node⟩).deletePick index =
      .ok (some ((Call.deletePick key).write uid)) := by
    refine (PicksPresenter.deletePick_eq_ok_some_iff _ _ _).mpr ⟨pick, _, chosen, refers, ?_⟩
    rw [at_key, client]
    rfl
  have keyed : pick.key = some key := by
    simp [Pick.key, refers, at_key]
  constructor
  · intro deleted asked hasked stored member same
    obtain ⟨key', _, write, _, _, _, _, keyed', sent', _, kept, _⟩ := deleted
    cases keyed.symm.trans keyed'
    cases keyed.symm.trans hasked
    cases sent.symm.trans sent'
    by_contra apart
    have unchanged := kept stored apart
    rw [entries_deletion] at unchanged
    have held := isSome_get?_of_mem member
    rw [← unchanged] at held
    obtain ⟨object, found⟩ := Option.isSome_iff_exists.mp held
    have left := (List.mem_filter.mp (mem_of_get? found)).2
    simp [same] at left
  · intro exact
    have exactly : ∀ entry ∈ (Stored.accountTree uid root).entries,
        compareKey key.text entry.1.text = .eq → entry.1 = key := fun entry member =>
      exact key keyed entry.1 (List.mem_map_of_mem member)
    refine ⟨key, child, (Call.deletePick key).write uid, inside, hread, at_key, refers, keyed, sent,
      listedPicks_deletion exactly, fun other different => ?_, ?_⟩
    · rw [entries_deletion, removeObjectForKey_eq_remove exactly, get?_remove, if_neg different]
    · exact (Run.wellFormed reachable).updateChild (wellFormed_callNode (.deletePick key)) _

/-- The row of "bar" is deleted from a list that knows neither the child added below
"bar" since nor "tea". -/
theorem deletes_chosen_pick_newer_tree :
    let listed := Stored.additionsTree sampleUid
      [("bar", sampleCoordinate), ("coffee", sampleCoordinate)]
    let root := Stored.additionsTree sampleUid [("bar", sampleCoordinate),
      ("coffee", sampleCoordinate), ("bar/photo", sampleCoordinate), ("tea", sampleCoordinate)]
    ∃ write, (Stored.presenterAt sampleUid listed).deletePick 0 = .ok (some write) ∧
      (Stored.listedPicks sampleUid (Stored.apply write root)).map Pick.title =
        [some "coffee", some "tea"] := by
  intro listed root
  have client : (PicksPresenter.create (some sampleUid)).ref =
      accountReference (some sampleUid) := rfl
  have reachable : Stored.Reachable sampleUid _ root :=
    Stored.Run.additions _ (by decide) fun _ _ _ => trivial
  have first : (Stored.presenterAt sampleUid listed).picks[0]? =
      some (listedPick sampleUid ⟨"bar", by decide⟩ "bar" sampleCoordinate) := by
    decide +kernel
  have exact : ∀ stored ∈ (Stored.accountTree sampleUid root).keys,
      compareKey "bar" stored.text = .eq → stored = ⟨"bar", by decide⟩ := by
    decide +kernel
  obtain ⟨key, _, write, _, _, _, _, keyed, sent, left, _⟩ :=
    (Reachable.deletes_chosen_pick_iff reachable client
      ((Stored.accountTree sampleUid listed).toNode id) first).mpr (by
        intro key keyed
        rw [key_listedPick, Option.some.injEq] at keyed
        subst keyed
        exact exact)
  rw [key_listedPick, Option.some.injEq] at keyed
  subst keyed
  refine ⟨write, sent, ?_⟩
  rw [left]
  decide +kernel

/-- The row of "-0" is deleted from a list that does not know "00" yet: "00" goes. -/
theorem deletes_other_spelling :
    let listed := Stored.additionsTree sampleUid [("-0", sampleCoordinate)]
    let root := Stored.additionsTree sampleUid [("-0", sampleCoordinate), ("00", sampleCoordinate)]
    let pick := listedPick sampleUid ⟨"-0", by decide⟩ "-0" sampleCoordinate
    Stored.Reachable sampleUid
        (additionCalls [("-0", sampleCoordinate), ("00", sampleCoordinate)]) root ∧
      (Stored.presenterAt sampleUid listed).picks[0]? = some pick ∧
      ∃ write, (Stored.presenterAt sampleUid listed).deletePick 0 = .ok (some write) ∧
        Stored.listedPicks sampleUid (Stored.apply write root) ≠
          (Stored.listedPicks sampleUid root).filter fun other => other.key ≠ pick.key := by
  intro listed root pick
  have first : (Stored.presenterAt sampleUid listed).picks[0]? = some pick := by decide +kernel
  refine ⟨Stored.Run.additions _ (by decide) fun _ _ _ => trivial, first,
    (Call.deletePick ⟨"-0", by decide⟩).write sampleUid, ?_, by decide +kernel⟩
  exact (PicksPresenter.deletePick_eq_ok_some_iff _ _ _).mpr ⟨pick, _, first, rfl, rfl⟩

end PicksOnMap.Guarantees
