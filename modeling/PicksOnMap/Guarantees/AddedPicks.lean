import PicksOnMap.Guarantees.AccountHistory

/-!
# What an addition does to the list

Source pin: PicksPresenter.swift:22-42, UIAlertController+extension.swift:20-23.
The alert hands the text of its field over unchanged, and `addNewPick` uses it as
a path. A name of one piece makes a pick under that key; a name of several pieces
makes one the list does not reach; a name of none replaces the account. Both
theorems say for which names the list afterwards is what the user expects: the
others are still there (`others_kept_iff`), and so is the new one
(`stored_and_shown_iff`).
-/
namespace PicksOnMap.Guarantees

open Source Support Support.SortedEntries

/-- The picks of other titles survive an addition exactly when the path its name
resolves to hits none of them. -/
theorem Reachable.others_kept_iff {uid : Key} {history : List Call} {root : FNode Key}
    (reachable : Reachable uid history root) {presenter : PicksPresenter}
    (client : presenter.ref = accountReference (some uid)) {name : String}
    {coordinate : CLLocationCoordinate2D} {write : DatabaseWrite}
    (sent : presenter.addNewPick name coordinate = .ok write) :
    (∀ pick ∈ listedPicks uid root, pick.title ≠ some name →
        pick ∈ listedPicks uid (write.apply root)) ↔
      ∀ pick ∈ listedPicks uid root, pick.title ≠ some name →
        ∀ key, pick.key = some key → ¬ Hits (pathPieces name) key := by
  have wf := Reachable.accountTree_wellFormed reachable
  have wf' := Reachable.accountTree_wellFormed (reachable.addNewPick client sent)
  have after : (accountTree uid (write.apply root)).leafAt =
      (effect id (.addNewPick name coordinate)).apply (accountTree uid root).leafAt :=
    leafAt_issued root (Issued.addNewPick client sent : Issued uid root _ _)
  constructor
  · intro kept pick listed other key hkey hit
    obtain ⟨key', title, place, shows, same⟩ :=
      (mem_listedPicks wf' pick).mp (kept pick listed other)
    subst same
    rw [key_listedPick, Option.some.injEq] at hkey
    subst hkey
    rw [after] at shows
    obtain ⟨_, hcall, _⟩ :=
      shows_after_hit _ (.addNewPick name coordinate) ((hitsSeen_id_iff _ _).mpr hit) shows
    cases hcall
    exact other rfl
  · intro missed pick listed other
    obtain ⟨key, title, place, shows, rfl⟩ := (mem_listedPicks wf pick).mp listed
    refine (mem_listedPicks wf' _).mpr ⟨key, title, place, ?_, rfl⟩
    rw [after]
    have apart := missed _ listed other key (key_listedPick _ _ _ _)
    refine (shows_after_miss _ (.addNewPick name coordinate) ?_).mpr shows
    exact fun hit => apart ((hitsSeen_id_iff _ _).mp hit)

/-- Adding "bar" to an account that lists "coffee" keeps "coffee". -/
theorem others_kept_iff_apart :
    let root := additionsTree sampleUid [("coffee", sampleCoordinate)]
    (listedPicks sampleUid root).map Pick.title = [some "coffee"] ∧
      ∀ pick ∈ listedPicks sampleUid root, pick.title ≠ some "bar" →
        pick ∈ listedPicks sampleUid
          ((additionWrite sampleUid "bar" sampleCoordinate).apply root) := by
  intro root
  have client : (PicksPresenter.create (some sampleUid)).ref =
      accountReference (some sampleUid) := rfl
  have reachable := Reachable.additions sampleUid [("coffee", sampleCoordinate)] (by decide)
  have sent := (addNewPick_client_iff client).mpr
    ⟨show Accepted "bar" sampleCoordinate by decide, rfl⟩
  refine ⟨by decide +kernel, (Reachable.others_kept_iff reachable client sent).mpr ?_⟩
  decide +kernel

/-- The name "/" resolves to the account itself, so the write discards every pick. -/
theorem addNewPick_discards_other_pick :
    ∃ root write, Reachable sampleUid [.addNewPick "coffee" sampleCoordinate] root ∧
      (PicksPresenter.create (some sampleUid)).addNewPick "/" sampleCoordinate = .ok write ∧
      ¬ ∀ pick ∈ listedPicks sampleUid root, pick.title ≠ some "/" →
        pick ∈ listedPicks sampleUid (write.apply root) := by
  refine ⟨additionsTree sampleUid [("coffee", sampleCoordinate)],
    additionWrite sampleUid "/" sampleCoordinate,
    Reachable.additions sampleUid [("coffee", sampleCoordinate)] (by decide),
    (addNewPick_client_iff rfl).mpr ⟨by decide, rfl⟩, ?_⟩
  decide +kernel

/-- A confirmed name is stored and listed with its coordinate exactly when it is an
accepted path of one piece that fits into a leaf. -/
theorem Reachable.stored_and_shown_iff {uid : Key} {history : List Call} {root : FNode Key}
    (reachable : Reachable uid history root) {presenter : PicksPresenter}
    (client : presenter.ref = accountReference (some uid)) (name : String)
    {coordinate : CLLocationCoordinate2D} (latitude : coordinate.latitude.isFinite = true)
    (longitude : coordinate.longitude.isFinite = true) :
    (∃ write, presenter.addNewPick name coordinate = .ok write ∧
        ∃ pick ∈ listedPicks uid (write.apply root),
          pick.title = some name ∧ pick.coordinate = coordinate) ↔
      isValidPathString name = true ∧ (pathPieces name).length = 1 ∧
        name.utf8ByteSize ≤ kFirebaseMaxLeafSize := by
  constructor
  · intro stored
    obtain ⟨write, sent, pick, listed, htitle, -⟩ := stored
    obtain ⟨accepted, -⟩ := (addNewPick_client_iff client).mp sent
    have after := reachable.addNewPick client sent
    obtain ⟨key, title, place, shows, rfl⟩ :=
      (mem_listedPicks (Reachable.accountTree_wellFormed after) pick).mp listed
    cases htitle
    have single := Reachable.pathPieces_title after shows
    exact ⟨accepted.path, by simp [single], accepted.size⟩
  · intro conditions
    obtain ⟨path, single, size⟩ := conditions
    have accepted : Accepted name coordinate := ⟨path, size,
      Double.isNaN_of_isFinite latitude, Double.isNaN_of_isFinite longitude⟩
    obtain ⟨key, hpieces⟩ := List.length_eq_one_iff.mp single
    have sent := (addNewPick_client_iff client).mpr ⟨accepted, rfl⟩
    refine ⟨_, sent,
      listedPick uid key name coordinate, ?_, rfl, rfl⟩
    refine (mem_listedPicks (Reachable.accountTree_wellFormed (reachable.addition accepted)) _).mpr
      ⟨key, name, coordinate, ?_, rfl⟩
    rw [leafAt_issued root (Issued.addNewPick client sent : Issued uid root _ _)]
    exact shows_after_add separatesFields_id _ coordinate (by rw [List.map_id, hpieces])

theorem stored_and_shown_iff_one_piece :
    ∃ write, (PicksPresenter.create (some sampleUid)).addNewPick "/bar" sampleCoordinate =
        .ok write ∧
      ∃ pick ∈ listedPicks sampleUid (write.apply FNode.emptyNode),
        pick.title = some "/bar" ∧ pick.coordinate = sampleCoordinate :=
  (Reachable.stored_and_shown_iff .empty rfl "/bar" (by decide) (by decide)).mpr (by decide)

/-- An empty text field raises, and "bar/left" is stored out of the list's reach. -/
theorem addNewPick_not_shown :
    sampleCoordinate.latitude.isFinite = true ∧ sampleCoordinate.longitude.isFinite = true ∧
      (∀ write, (PicksPresenter.create (some sampleUid)).addNewPick "" sampleCoordinate ≠
        .ok write) ∧
      ∃ write, (PicksPresenter.create (some sampleUid)).addNewPick "bar/left" sampleCoordinate =
          .ok write ∧
        ∀ pick ∈ listedPicks sampleUid (write.apply FNode.emptyNode),
          pick.title ≠ some "bar/left" := by
  refine ⟨by decide, by decide, fun write sent => ?_,
    additionWrite sampleUid "bar/left" sampleCoordinate,
    (addNewPick_client_iff rfl).mpr ⟨by decide, rfl⟩, ?_⟩
  · have refused : ¬ Accepted "" sampleCoordinate := by decide
    exact refused ((addNewPick_client_iff rfl).mp sent).1
  · decide +kernel

end PicksOnMap.Guarantees
