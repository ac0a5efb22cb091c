import PicksOnMap.Guarantees.AccountHistory
import PicksOnMap.Source.MapScreen

/-!
# From a row to the map

Source pin: MapViewController.swift:73, ListTableViewController.swift:44. The list
hands over a pick and the map looks its title up again, with `==` on strings. The
database keeps picks apart by their exact keys, and two listed titles are never the
same string (`Reachable.titles_nodup`), but they can still be canonically
equivalent. The look-up reaches the selected pick in every other case.
-/
namespace PicksOnMap.Guarantees

open Source Support

variable (unicode : UnicodeData)

/-- Every row leads to its own pick exactly when no two listed titles are different
spellings of one string. -/
theorem Reachable.lookup_reaches_iff {uid : Key} {history : List Call} {root : FNode Key}
    (reachable : Reachable uid history root) :
    (∀ (index : Nat) (pick : Pick), (listedPicks uid root)[index]? = some pick →
        firstTitled unicode (listedPicks uid root) pick.title = some pick) ↔
      ∀ one ∈ listedPicks uid root, ∀ other ∈ listedPicks uid root,
        unicode.optionalEqual one.title other.title = true → one.title = other.title := by
  constructor
  · intro reaches one oneListed other otherListed same
    obtain ⟨oneIndex, oneAt⟩ := List.mem_iff_getElem?.mp oneListed
    obtain ⟨otherIndex, otherAt⟩ := List.mem_iff_getElem?.mp otherListed
    have lookups : firstTitled unicode (listedPicks uid root) one.title =
        firstTitled unicode (listedPicks uid root) other.title := by
      unfold firstTitled
      simp only [unicode.optionalEqual_congr same]
    rw [reaches oneIndex one oneAt, reaches otherIndex other otherAt] at lookups
    rw [Option.some.inj lookups]
  · intro separate index pick at_index
    have listed := List.mem_of_getElem? at_index
    have nodup : ((listedPicks uid root).map Pick.title).Nodup :=
      List.pairwise_map.mpr (Reachable.titles_nodup reachable)
    cases first : firstTitled unicode (listedPicks uid root) pick.title with
    | none =>
        have missing := List.find?_eq_none.mp first pick listed
        simp at missing
    | some found =>
        obtain ⟨foundListed, titled⟩ := firstTitled_eq_some unicode first
        have title : found.title = pick.title := separate found foundListed pick listed titled
        rw [List.inj_on_of_nodup_map nodup foundListed listed title]

theorem lookup_reaches_iff_apart :
    let root := additionsTree sampleUid [("bar", sampleCoordinate), ("caf\u00e9", sampleCoordinate)]
    (listedPicks sampleUid root).length = 2 ∧
      ∀ (index : Nat) (pick : Pick), (listedPicks sampleUid root)[index]? = some pick →
        firstTitled acuteData (listedPicks sampleUid root) pick.title = some pick := by
  refine ⟨by decide +kernel, (Reachable.lookup_reaches_iff acuteData
    (Reachable.additions sampleUid _ (by decide))).mpr ?_⟩
  decide +kernel

/-- Two spellings of "café" are two picks, and the row of one leads to the other. -/
theorem lookup_reaches_other_spelling :
    let additions := [("caf\u00e9", sampleCoordinate), ("cafe\u0301", sampleCoordinate)]
    let list := listedPicks sampleUid (additionsTree sampleUid additions)
    Reachable sampleUid (additionCalls additions) (additionsTree sampleUid additions) ∧
      ∃ pick, list[1]? = some pick ∧ firstTitled acuteData list pick.title ≠ some pick := by
  intro additions list
  refine ⟨Reachable.additions sampleUid additions (by decide),
    listedPick sampleUid ⟨"caf\u00e9", by decide⟩ "caf\u00e9" sampleCoordinate, ?_, ?_⟩
  · decide +kernel
  · decide +kernel

end PicksOnMap.Guarantees
