import PicksOnMap.Guarantees.StoredHistory

/-!
# Edits by two clients in either order

Source pin: PicksPresenter.swift:35-47; Pods/FirebaseDatabase, FChildrenNode.m:113-142,
FArraySortedDictionary.m:129-162, FLLRBValueNode.m:80-95. Two clients that list the same
tree send one write each; the server applies them in some order. What the list shows
depends on the order when one of the two calls adds a pick that the other undoes
(`Collide`). Everything else commutes slot by slot, also where the two writes meet below a
pick's other children or above the whole account. The key of a listed pick can still
depend on the order, where the two calls spell it differently or where one of them turns
the array of children into a tree before the other respells a key (`Renames`). The list is
the same in either order exactly when neither happens (`Reachable.edits_commute_iff`).
-/
namespace PicksOnMap.Guarantees

open Source Support Support.SortedEntries

/-- The calls concern different picks of the list: different names, different keys,
or a key whose pick has another title. -/
def DifferentPicks (uid : Key) (root : FStoredNode) : Call → Call → Prop
  | .addNewPick name _, .addNewPick other _ => name ≠ other
  | .addNewPick name _, .deletePick key =>
      ∀ pick ∈ Stored.listedPicks uid root, pick.key = some key → pick.title ≠ some name
  | .deletePick key, .addNewPick name _ =>
      ∀ pick ∈ Stored.listedPicks uid root, pick.key = some key → pick.title ≠ some name
  | .deletePick key, .deletePick other => key ≠ other

theorem DifferentPicks.symm {uid : Key} {root : FStoredNode} {first second : Call}
    (apart : DifferentPicks uid root first second) : DifferentPicks uid root second first := by
  cases first <;> cases second
  · exact Ne.symm apart
  · exact apart
  · exact apart
  · exact Ne.symm apart

/-! ## What the list shows -/

/-- `call` overwrites, removes or damages the pick that `addition` adds. -/
def Undoes (call addition : Call) : Prop :=
  ∃ name coordinate key, addition = .addNewPick name coordinate ∧ pathPieces name = [key] ∧
    HitsSeen Key.slot call.path key.slot

def Collide (first second : Call) : Prop := Undoes second first ∨ Undoes first second

/-- The leaves after both calls, `first` before `second`. -/
def leavesAfter (uid : Key) (root : FStoredNode) (first second : Call) :
    LeafMap KeySlot FValue :=
  (effect Key.slot second).apply ((effect Key.slot first).apply (Stored.leaves uid root))

/-- Where no addition is undone, the two calls agree on every field they both decide. -/
theorem leavesAfter_comm {uid : Key} {root : FStoredNode} {first second : Call}
    (clear : ¬ Collide first second) (slot : KeySlot) {field : Key} (member : field ∈ Pick.fields) :
    leavesAfter uid root first second [slot, field.slot] =
      leavesAfter uid root second first [slot, field.slot] := by
  have absent : ∀ {addition call : Call}, ¬ Undoes call addition →
      (effect Key.slot call).Touches [slot, field.slot] →
        (effect Key.slot addition).valueAt [slot, field.slot] = none := by
    intro addition call kept touched
    rw [Option.eq_none_iff_forall_ne_some]
    intro value hvalue
    obtain ⟨name, coordinate, rfl, resolves, _⟩ := effect_valueAt_field.mp hvalue
    obtain ⟨key, single, rfl⟩ := List.map_eq_singleton_iff.mp resolves
    exact kept ⟨name, coordinate, key, rfl, single,
      (hits_iff_touches call key.slot).mpr ⟨field, member, touched⟩⟩
  refine (LeafMap.Write.apply_comm_at_iff _ _ _ _).mpr fun firstTouches secondTouches => ?_
  rw [absent (fun undone => clear (.inl undone)) secondTouches,
    absent (fun undone => clear (.inr undone)) firstTouches]

/-- A pick is found in the slot after both calls: it was there and neither touches it, or
one of the two adds it. -/
def Remains (uid : Key) (root : FStoredNode) (first second : Call) (slot : KeySlot) : Prop :=
  (∃ title coordinate, Shows Key.slot (Stored.leaves uid root) slot title coordinate ∧
      ¬ HitsSeen Key.slot first.path slot ∧ ¬ HitsSeen Key.slot second.path slot) ∨
    ∃ name coordinate key, (first = .addNewPick name coordinate ∨
      second = .addNewPick name coordinate) ∧ pathPieces name = [key] ∧ key.slot = slot

theorem Remains.symm {uid : Key} {root : FStoredNode} {first second : Call} {slot : KeySlot}
    (remains : Remains uid root first second slot) : Remains uid root second first slot := by
  rcases remains with ⟨title, coordinate, shows, one, other⟩ | ⟨name, coordinate, key, adds, rest⟩
  · exact .inl ⟨title, coordinate, shows, other, one⟩
  · exact .inr ⟨name, coordinate, key, adds.symm, rest⟩

theorem remains_of_shows {uid : Key} {root : FStoredNode} {first second : Call} {slot : KeySlot}
    {title : String} {coordinate : CLLocationCoordinate2D}
    (shows : Shows Key.slot (leavesAfter uid root first second) slot title coordinate) :
    Remains uid root first second slot := by
  by_cases hit : HitsSeen Key.slot second.path slot
  · obtain ⟨place, rfl, resolves⟩ := shows_after_hit _ second hit shows
    obtain ⟨key, single, at_slot⟩ := List.map_eq_singleton_iff.mp resolves
    exact .inr ⟨title, place, key, .inr rfl, single, at_slot⟩
  · have before := (shows_after_miss _ second hit).mp shows
    by_cases hit' : HitsSeen Key.slot first.path slot
    · obtain ⟨place, rfl, resolves⟩ := shows_after_hit _ first hit' before
      obtain ⟨key, single, at_slot⟩ := List.map_eq_singleton_iff.mp resolves
      exact .inr ⟨title, place, key, .inl rfl, single, at_slot⟩
    · exact .inl ⟨title, coordinate, (shows_after_miss _ first hit').mp before, hit', hit⟩

theorem Remains.shows {uid : Key} {root : FStoredNode} {first second : Call} {slot : KeySlot}
    (remains : Remains uid root first second slot) (clear : ¬ Collide first second) :
    ∃ title coordinate,
      Shows Key.slot (leavesAfter uid root first second) slot title coordinate := by
  rcases remains with ⟨title, coordinate, shows, one, other⟩ |
    ⟨name, coordinate, key, rfl | rfl, single, rfl⟩
  · exact ⟨title, coordinate, (shows_after_miss _ second other).mpr
      ((shows_after_miss _ first one).mpr shows)⟩
  · have missed : ¬ HitsSeen Key.slot second.path key.slot := fun hit =>
      clear (.inl ⟨name, coordinate, key, rfl, single, hit⟩)
    exact ⟨name, coordinate, (shows_after_miss _ second missed).mpr
      (shows_after_add separatesFields_slot _ coordinate (by rw [single]; rfl))⟩
  · exact ⟨name, coordinate,
      shows_after_add separatesFields_slot _ coordinate (by rw [single]; rfl)⟩

/-- The calls that leave a slot with a pick: additions below some key, and deletions in
other slots. -/
def Spares (call : Call) (slot : KeySlot) : Prop :=
  ∃ front rest, call.path = front :: rest ∧
    ((∃ name coordinate, call = .addNewPick name coordinate) ∨ slot ≠ front.slot)

theorem spares_of_not_hits {call : Call} {slot : KeySlot}
    (missed : ¬ HitsSeen Key.slot call.path slot) : Spares call slot := by
  cases path : call.path with
  | nil => exact absurd (.inl (by rw [path]; exact List.nil_prefix)) missed
  | cons front rest =>
      refine ⟨front, rest, path, ?_⟩
      cases call with
      | addNewPick name coordinate => exact .inl ⟨name, coordinate, rfl⟩
      | deletePick key =>
          cases path
          refine .inr fun same => missed (.inl ?_)
          rw [same]
          exact List.prefix_rfl

theorem Remains.spares {uid : Key} {root : FStoredNode} {first second : Call} {slot : KeySlot}
    (remains : Remains uid root first second slot) (clear : ¬ Collide first second) :
    Spares first slot ∧ Spares second slot := by
  rcases remains with ⟨_, _, _, one, other⟩ | ⟨name, coordinate, key, rfl | rfl, single, rfl⟩
  · exact ⟨spares_of_not_hits one, spares_of_not_hits other⟩
  · exact ⟨⟨key, [], single, .inl ⟨name, coordinate, rfl⟩⟩, spares_of_not_hits fun hit =>
      clear (.inl ⟨name, coordinate, key, rfl, single, hit⟩)⟩
  · exact ⟨spares_of_not_hits fun hit =>
      clear (.inr ⟨name, coordinate, key, rfl, single, hit⟩),
      ⟨key, [], single, .inl ⟨name, coordinate, rfl⟩⟩⟩

/-! ## The key the list shows it under -/

def Passes (call : Call) (slot : KeySlot) (key : Key) : Prop :=
  ∃ rest, call.path = key :: rest ∧ key.slot = slot

theorem Passes.slot_eq {call : Call} {slot : KeySlot} {key : Key} (passes : Passes call slot key) :
    key.slot = slot := passes.choose_spec.2

theorem Passes.unique {call : Call} {slot : KeySlot} {key again : Key}
    (passes : Passes call slot key) (passesAgain : Passes call slot again) : key = again := by
  obtain ⟨rest, path, _⟩ := passes
  obtain ⟨rest', path', _⟩ := passesAgain
  exact (List.cons.inj (path.symm.trans path')).1

/-- The call adds a child to a full array. -/
def Grows (uid : Key) (root : FStoredNode) (call : Call) : Prop :=
  (Stored.accountTree uid root).isTree = false ∧
    arrayToTreeThreshold ≤ (Stored.accountTree uid root).keys.length ∧
    ∃ name coordinate front rest, call = .addNewPick name coordinate ∧
      pathPieces name = front :: rest ∧ (Stored.accountTree uid root).keyIn front.slot = none

/-- Both calls go through the slot with two spellings, and it has no key in a tree yet. -/
def RespellBoth (uid : Key) (root : FStoredNode) (first second : Call) (slot : KeySlot) : Prop :=
  ∃ key other, Passes first slot key ∧ Passes second slot other ∧ key ≠ other ∧
    ¬ ((Stored.accountTree uid root).isTree = true ∧
      ((Stored.accountTree uid root).keyIn slot).isSome = true)

/-- Only `call` goes through the slot, with another spelling than the stored key's, and the
other call makes a tree of the array of children. -/
def RespellsOne (uid : Key) (root : FStoredNode) (call other : Call) (slot : KeySlot) : Prop :=
  ∃ key stored, Passes call slot key ∧ (∀ passed, ¬ Passes other slot passed) ∧
    (Stored.accountTree uid root).keyIn slot = some stored ∧ stored ≠ key ∧ Grows uid root other

/-- The key of a pick that is listed after both calls depends on their order. -/
def Renames (uid : Key) (root : FStoredNode) (first second : Call) : Prop :=
  ∃ slot, Remains uid root first second slot ∧
    (RespellBoth uid root first second slot ∨ RespellsOne uid root first second slot ∨
      RespellsOne uid root second first slot)

section Keys

variable {uid : Key} {root : FStoredNode} {call : Call} {slot : KeySlot}

theorem keyIn_passed (wf : root.WellFormed) (spares : Spares call slot) {key : Key}
    (passes : Passes call slot key) :
    (Stored.accountTree uid (Stored.apply (call.write uid) root)).keyIn slot =
      some ((Stored.accountTree uid root).keyPut key) := by
  obtain ⟨front, rest, path, adds⟩ := spares
  obtain ⟨_, path', rfl⟩ := passes
  cases path.symm.trans path'
  rcases adds with ⟨name, coordinate, rfl⟩ | apart
  · rw [keyIn_addition (wellFormed_accountTree wf uid) coordinate path, if_pos rfl]
  · exact absurd rfl apart

theorem keyIn_past (wf : root.WellFormed) (spares : Spares call slot)
    (past : ∀ key, ¬ Passes call slot key) :
    (Stored.accountTree uid (Stored.apply (call.write uid) root)).keyIn slot =
      (Stored.accountTree uid root).keyIn slot := by
  obtain ⟨front, rest, path, _⟩ := spares
  have apart : slot ≠ front.slot := fun same => past front ⟨rest, path, same.symm⟩
  cases call with
  | addNewPick name coordinate =>
      rw [keyIn_addition (wellFormed_accountTree wf uid) coordinate path, if_neg apart]
  | deletePick key =>
      cases path
      rw [keyIn_deletion, if_neg apart]

/-- While the slot keeps its key, the children become a tree only as an array that grows. -/
theorem isTree_iff (spares : Spares call slot) {stored : Key}
    (held : (Stored.accountTree uid root).keyIn slot = some stored) :
    (Stored.accountTree uid (Stored.apply (call.write uid) root)).isTree = true ↔
      (Stored.accountTree uid root).isTree = true ∨ Grows uid root call := by
  obtain ⟨front, rest, path, adds⟩ := spares
  cases call with
  | addNewPick name coordinate =>
      rw [isTree_addition coordinate path]
      cases tree : (Stored.accountTree uid root).isTree with
      | true => simp
      | false =>
          simp only [Bool.false_or, Bool.and_eq_true, Option.isNone_iff_eq_none, decide_eq_true_eq,
            Bool.false_eq_true, false_or]
          constructor
          · intro both
            obtain ⟨free, full⟩ := both
            exact ⟨tree, full, name, coordinate, front, rest, rfl, path, free⟩
          · intro grows
            obtain ⟨_, full, _, _, _, _, same, path', free⟩ := grows
            cases same
            cases path.symm.trans path'
            exact ⟨free, full⟩
  | deletePick key =>
      cases path
      have apart : slot ≠ front.slot := by
        rcases adds with ⟨_, _, same⟩ | apart
        · cases same
        · exact apart
      rw [isTree_deletion held apart]
      refine ⟨.inl, fun either => either.resolve_right ?_⟩
      intro grows
      obtain ⟨_, _, _, _, _, _, same, _⟩ := grows
      cases same

/-- A call through a slot that has a child does not grow the array. -/
theorem not_grows_of_passes {stored key : Key}
    (held : (Stored.accountTree uid root).keyIn slot = some stored)
    (passes : Passes call slot key) : ¬ Grows uid root call := by
  intro grows
  obtain ⟨_, _, name, coordinate, front, rest, rfl, path, free⟩ := grows
  obtain ⟨_, path', rfl⟩ := passes
  cases path.symm.trans path'
  rw [held] at free
  cases free

end Keys

/-- The key of the slot after both calls, `first` before `second`. -/
def keyAfter (uid : Key) (root : FStoredNode) (first second : Call) (slot : KeySlot) :
    Option Key :=
  (Stored.accountTree uid
    (Stored.apply (second.write uid) (Stored.apply (first.write uid) root))).keyIn slot

section Order

variable {uid : Key} {root : FStoredNode} {first second : Call} {slot : KeySlot}

/-- Both calls go through the slot: the later one finds the key the earlier one put. -/
theorem keyAfter_both (wf : root.WellFormed) (firstSpares : Spares first slot)
    (secondSpares : Spares second slot) {key other : Key} (passes : Passes first slot key)
    (otherPasses : Passes second slot other) :
    keyAfter uid root first second slot =
      some (if (Stored.accountTree uid (Stored.apply (first.write uid) root)).isTree
        then (Stored.accountTree uid root).keyPut key else other) := by
  unfold keyAfter
  rw [keyIn_passed (wellFormed_apply wf uid first) secondSpares otherPasses, FStoredNode.keyPut,
    otherPasses.slot_eq, keyIn_passed wf firstSpares passes]

theorem isTree_of_free (spares : Spares first slot) {key : Key} (passes : Passes first slot key)
    (free : (Stored.accountTree uid root).keyIn slot = none) :
    (Stored.accountTree uid (Stored.apply (first.write uid) root)).isTree =
      ((Stored.accountTree uid root).isTree ||
        decide (arrayToTreeThreshold ≤ (Stored.accountTree uid root).keys.length)) := by
  obtain ⟨front, rest, path, adds⟩ := spares
  obtain ⟨_, path', rfl⟩ := passes
  cases path.symm.trans path'
  rcases adds with ⟨name, coordinate, rfl⟩ | apart
  · rw [isTree_addition coordinate path, free]
    rfl
  · exact absurd rfl apart

theorem isTree_of_held (spares : Spares first slot) {key stored : Key}
    (passes : Passes first slot key)
    (held : (Stored.accountTree uid root).keyIn slot = some stored) :
    (Stored.accountTree uid (Stored.apply (first.write uid) root)).isTree =
      (Stored.accountTree uid root).isTree := by
  rw [Bool.eq_iff_iff, isTree_iff spares held]
  exact or_iff_left (not_grows_of_passes held passes)

theorem keyAfter_both_comm_iff (wf : root.WellFormed) (firstSpares : Spares first slot)
    (secondSpares : Spares second slot) {key other : Key} (passes : Passes first slot key)
    (otherPasses : Passes second slot other) :
    keyAfter uid root first second slot = keyAfter uid root second first slot ↔
      ¬ RespellBoth uid root first second slot := by
  have respell : RespellBoth uid root first second slot ↔ key ≠ other ∧
      ¬ ((Stored.accountTree uid root).isTree = true ∧
        ((Stored.accountTree uid root).keyIn slot).isSome = true) := by
    constructor
    · intro respelled
      obtain ⟨_, _, again, otherAgain, rest⟩ := respelled
      rwa [passes.unique again, otherPasses.unique otherAgain]
    · exact fun rest => ⟨key, other, passes, otherPasses, rest⟩
  rw [respell, keyAfter_both wf firstSpares secondSpares passes otherPasses,
    keyAfter_both wf secondSpares firstSpares otherPasses passes]
  cases held : (Stored.accountTree uid root).keyIn slot with
  | none =>
      rw [isTree_of_free firstSpares passes held, isTree_of_free secondSpares otherPasses held,
        FStoredNode.keyPut, FStoredNode.keyPut, passes.slot_eq, otherPasses.slot_eq, held]
      simp only [Option.isSome_none, Bool.false_eq_true, and_false, not_false_eq_true, and_true,
        ne_eq, not_not, Option.some.injEq]
      split
      · exact Iff.rfl
      · exact eq_comm
  | some stored =>
      rw [isTree_of_held firstSpares passes held, isTree_of_held secondSpares otherPasses held,
        FStoredNode.keyPut, FStoredNode.keyPut, passes.slot_eq, otherPasses.slot_eq, held]
      cases (Stored.accountTree uid root).isTree with
      | true => simp
      | false => simp [eq_comm]

/-- Where only `call` goes through the slot, it finds the key that was there. -/
theorem keyAfter_one_comm_iff {call other : Call} (wf : root.WellFormed)
    (spares : Spares call slot) (otherSpares : Spares other slot) {key : Key}
    (passes : Passes call slot key) (past : ∀ passed, ¬ Passes other slot passed) :
    keyAfter uid root call other slot = keyAfter uid root other call slot ↔
      ¬ RespellsOne uid root call other slot := by
  have respell : RespellsOne uid root call other slot ↔
      ∃ stored, (Stored.accountTree uid root).keyIn slot = some stored ∧ stored ≠ key ∧
        Grows uid root other := by
    constructor
    · intro respelled
      obtain ⟨_, stored, again, _, rest⟩ := respelled
      rw [passes.unique again]
      exact ⟨stored, rest⟩
    · intro respelled
      obtain ⟨stored, rest⟩ := respelled
      exact ⟨key, stored, passes, past, rest⟩
  unfold keyAfter
  rw [respell, keyIn_past (wellFormed_apply wf uid call) otherSpares past,
    keyIn_passed wf spares passes, keyIn_passed (wellFormed_apply wf uid other) spares passes,
    FStoredNode.keyPut, FStoredNode.keyPut, passes.slot_eq, keyIn_past wf otherSpares past]
  cases held : (Stored.accountTree uid root).keyIn slot with
  | none => simp
  | some stored =>
      have tree := isTree_iff otherSpares held
      simp only [Option.some.injEq, exists_eq_left', not_and, ne_eq]
      by_cases grows : Grows uid root other
      · have array := grows.1
        simp only [array, grows, or_true, iff_true] at tree
        simp [array, tree, grows, eq_comm]
      · have same : (Stored.accountTree uid (Stored.apply (other.write uid) root)).isTree =
            (Stored.accountTree uid root).isTree := by
          rw [Bool.eq_iff_iff, tree]
          exact or_iff_left grows
        simp [same, grows]

/-- The key of a slot depends on the order where the calls respell it, and only there. -/
theorem keyAfter_comm_iff (wf : root.WellFormed) (firstSpares : Spares first slot)
    (secondSpares : Spares second slot) :
    keyAfter uid root first second slot = keyAfter uid root second first slot ↔
      ¬ (RespellBoth uid root first second slot ∨ RespellsOne uid root first second slot ∨
        RespellsOne uid root second first slot) := by
  by_cases firstPasses : ∃ key, Passes first slot key
  · obtain ⟨key, passes⟩ := firstPasses
    have notSecond : ¬ RespellsOne uid root second first slot := fun ⟨_, _, _, past, _⟩ =>
      past key passes
    by_cases secondPasses : ∃ key, Passes second slot key
    · obtain ⟨other, otherPasses⟩ := secondPasses
      have notFirst : ¬ RespellsOne uid root first second slot := fun ⟨_, _, _, past, _⟩ =>
        past other otherPasses
      rw [keyAfter_both_comm_iff wf firstSpares secondSpares passes otherPasses]
      simp [notFirst, notSecond]
    · have past := not_exists.mp secondPasses
      have notBoth : ¬ RespellBoth uid root first second slot := fun ⟨_, other, _, through, _⟩ =>
        past other through
      rw [keyAfter_one_comm_iff wf firstSpares secondSpares passes past]
      simp [notBoth, notSecond]
  · have past := not_exists.mp firstPasses
    have notBoth : ¬ RespellBoth uid root first second slot := fun ⟨key, _, through, _⟩ =>
      past key through
    have notFirst : ¬ RespellsOne uid root first second slot := fun ⟨key, _, through, _⟩ =>
      past key through
    by_cases secondPasses : ∃ key, Passes second slot key
    · obtain ⟨other, otherPasses⟩ := secondPasses
      rw [eq_comm, keyAfter_one_comm_iff wf secondSpares firstSpares otherPasses past]
      simp [notBoth, notFirst]
    · have otherPast := not_exists.mp secondPasses
      have notSecond : ¬ RespellsOne uid root second first slot := fun ⟨key, _, through, _⟩ =>
        otherPast key through
      unfold keyAfter
      rw [keyIn_past (wellFormed_apply wf uid first) secondSpares otherPast,
        keyIn_past wf firstSpares past,
        keyIn_past (wellFormed_apply wf uid second) firstSpares past,
        keyIn_past wf secondSpares otherPast]
      simp [notBoth, notFirst, notSecond]

end Order

/-! ## The list -/

/-- The list after both calls, `first` before `second`. -/
def listAfter (uid : Key) (root : FStoredNode) (first second : Call) : List Pick :=
  Stored.listedPicks uid (Stored.apply (second.write uid) (Stored.apply (first.write uid) root))

section Lists

variable {uid : Key} {root : FStoredNode} {first second : Call}

theorem mem_listAfter (wf : root.WellFormed) (pick : Pick) :
    pick ∈ listAfter uid root first second ↔
      ∃ key title coordinate, keyAfter uid root first second key.slot = some key ∧
        Shows Key.slot (leavesAfter uid root first second) key.slot title coordinate ∧
        pick = listedPick uid key title coordinate := by
  unfold listAfter leavesAfter
  rw [← leaves_apply, ← leaves_apply]
  exact Stored.mem_listedPicks
    (wellFormed_accountTree (wellFormed_apply (wellFormed_apply wf uid first) uid second) uid) pick

/-- What is shown after both calls is listed, under the key of its slot. -/
theorem listed_of_shows (wf : root.WellFormed) {slot : KeySlot} {title : String}
    {coordinate : CLLocationCoordinate2D}
    (shows : Shows Key.slot (leavesAfter uid root first second) slot title coordinate) :
    ∃ key, keyAfter uid root first second slot = some key ∧ key.slot = slot ∧
      listedPick uid key title coordinate ∈ listAfter uid root first second := by
  have stored := shows
  unfold leavesAfter at stored
  rw [← leaves_apply, ← leaves_apply] at stored
  obtain ⟨key, held, rfl⟩ := exists_keyIn_of_shows stored
  exact ⟨key, held, rfl, (mem_listAfter wf _).mpr ⟨key, title, coordinate, held, shows, rfl⟩⟩

/-- A pick listed after both calls is shown, under the key of its slot. -/
theorem shows_of_listed (wf : root.WellFormed) {key : Key} {title : String}
    {coordinate : CLLocationCoordinate2D}
    (listed : listedPick uid key title coordinate ∈ listAfter uid root first second) :
    keyAfter uid root first second key.slot = some key ∧
      ∃ place, Shows Key.slot (leavesAfter uid root first second) key.slot title place := by
  obtain ⟨key', title', place, held, shows, same⟩ := (mem_listAfter wf _).mp listed
  have keys : key = key' := by simpa using congrArg Pick.key same
  have titles : title = title' := by simpa [listedPick] using congrArg Pick.title same
  subst keys titles
  exact ⟨held, place, shows⟩

/-- An undone addition is listed if it comes last, and only then. -/
theorem not_undoes_of_same (wf : root.WellFormed) (apart : DifferentPicks uid root first second)
    (same : listAfter uid root first second = listAfter uid root second first) :
    ¬ Undoes second first := by
  intro undone
  obtain ⟨name, coordinate, key, rfl, resolves, hit⟩ := undone
  have added : Shows Key.slot (leavesAfter uid root second (.addNewPick name coordinate)) key.slot
      name coordinate := shows_after_add separatesFields_slot _ coordinate (by rw [resolves]; rfl)
  obtain ⟨stored, _, at_slot, listed⟩ := listed_of_shows wf added
  rw [← same] at listed
  obtain ⟨_, place, undone⟩ := shows_of_listed wf listed
  rw [at_slot] at undone
  obtain ⟨_, rfl, _⟩ := shows_after_hit _ second hit undone
  exact apart rfl

theorem Collide.symm (collide : Collide first second) : Collide second first := Or.symm collide

/-- Where nothing collides and no key depends on the order, what is listed after the calls
in one order is listed after them in the other. -/
theorem listed_of_comm (wf : root.WellFormed) (clear : ¬ Collide first second)
    (keys : ∀ slot, Remains uid root first second slot →
      keyAfter uid root first second slot = keyAfter uid root second first slot) {pick : Pick}
    (listed : pick ∈ listAfter uid root first second) : pick ∈ listAfter uid root second first := by
  obtain ⟨key, title, coordinate, held, shows, rfl⟩ := (mem_listAfter wf pick).mp listed
  refine (mem_listAfter wf _).mpr ⟨key, title, coordinate, ?_, ?_, rfl⟩
  · rw [← keys key.slot (remains_of_shows shows), held]
  · exact shows.congr fun field member => leavesAfter_comm clear key.slot member

/-- The list after both calls does not depend on their order exactly when neither undoes
an addition of the other and no listed pick's key depends on it. -/
theorem listAfter_comm_iff (wf : root.WellFormed) (apart : DifferentPicks uid root first second) :
    listAfter uid root first second = listAfter uid root second first ↔
      ¬ Collide first second ∧ ¬ Renames uid root first second := by
  constructor
  · intro same
    have clear : ¬ Collide first second := by
      intro collide
      obtain undone | undone := collide
      · exact not_undoes_of_same wf apart same undone
      · exact not_undoes_of_same wf apart.symm same.symm undone
    refine ⟨clear, fun ⟨slot, remains, respelled⟩ => ?_⟩
    obtain ⟨firstSpares, secondSpares⟩ := remains.spares clear
    obtain ⟨title, coordinate, shows⟩ := remains.shows clear
    obtain ⟨key, held, at_slot, listed⟩ := listed_of_shows wf shows
    rw [same] at listed
    obtain ⟨held', _⟩ := shows_of_listed wf listed
    rw [at_slot, ← held] at held'
    exact (keyAfter_comm_iff wf firstSpares secondSpares).mp held'.symm respelled
  · intro neither
    obtain ⟨clear, kept⟩ := neither
    have keys : ∀ slot, Remains uid root first second slot →
        keyAfter uid root first second slot = keyAfter uid root second first slot := by
      intro slot remains
      obtain ⟨firstSpares, secondSpares⟩ := remains.spares clear
      exact (keyAfter_comm_iff wf firstSpares secondSpares).mpr fun respelled =>
        kept ⟨slot, remains, respelled⟩
    refine Stored.listedPicks_ext
      (wellFormed_accountTree (wellFormed_apply (wellFormed_apply wf uid first) uid second) uid)
      (wellFormed_accountTree (wellFormed_apply (wellFormed_apply wf uid second) uid first) uid)
      fun pick => ⟨listed_of_comm wf clear keys, ?_⟩
    exact listed_of_comm wf (fun collide => clear collide.symm)
      fun slot remains => (keys slot remains.symm).symm

end Lists

/-- Two clients' edits of different picks lead to the same list in either order exactly when
neither undoes an addition of the other and the key of no listed pick depends on the order. -/
theorem Reachable.edits_commute_iff {uid : Key} {history : List Call} {root : FStoredNode}
    (reachable : Stored.Reachable uid history root) {first second : Call}
    {firstWrite secondWrite : DatabaseWrite}
    (firstIssued : Stored.Issued uid root first firstWrite)
    (secondIssued : Stored.Issued uid root second secondWrite)
    (apart : DifferentPicks uid root first second) :
    Stored.listedPicks uid (Stored.apply secondWrite (Stored.apply firstWrite root)) =
        Stored.listedPicks uid (Stored.apply firstWrite (Stored.apply secondWrite root)) ↔
      ¬ Collide first second ∧ ¬ Renames uid root first second := by
  rw [firstIssued.write_eq, secondIssued.write_eq]
  exact listAfter_comm_iff (Run.wellFormed reachable) apart

/-- One client adds "bar" while another deletes the listed "coffee". -/
theorem edits_commute_iff_add_delete :
    let root := Stored.additionsTree sampleUid [("coffee", sampleCoordinate)]
    let added := (Call.addNewPick "bar" sampleCoordinate).write sampleUid
    let deleted := (Call.deletePick ⟨"coffee", by decide⟩).write sampleUid
    Stored.listedPicks sampleUid (Stored.apply deleted (Stored.apply added root)) =
      Stored.listedPicks sampleUid (Stored.apply added (Stored.apply deleted root)) := by
  intro root added deleted
  have client : (PicksPresenter.create (some sampleUid)).ref =
      accountReference (some sampleUid) := rfl
  have addIssued : Stored.Issued sampleUid root (.addNewPick "bar" sampleCoordinate) added :=
    .addNewPick client ((addNewPick_client_iff client).mpr ⟨by decide, rfl⟩)
  have listed : listedPick sampleUid ⟨"coffee", by decide⟩ "coffee" sampleCoordinate ∈
      Stored.listedPicks sampleUid root := by
    decide +kernel
  have apart : DifferentPicks sampleUid root (.addNewPick "bar" sampleCoordinate)
      (.deletePick ⟨"coffee", by decide⟩) := by
    unfold DifferentPicks
    decide +kernel
  have bar : pathPieces "bar" = [⟨"bar", by decide⟩] := by decide
  refine (Reachable.edits_commute_iff
    (Stored.Run.additions _ (by decide) fun _ _ _ => trivial) addIssued
    (Stored.Issued.deletion listed rfl) apart).mpr ⟨?_, ?_⟩
  · rintro (⟨name, coordinate, key, hcall, resolves, hit⟩ | ⟨_, _, _, hcall, _⟩)
    · cases hcall
      rw [bar] at resolves
      cases resolves
      revert hit
      decide
    · cases hcall
  · rintro ⟨slot, _, ⟨key, other, ⟨_, path, rfl⟩, ⟨_, path', same⟩, _⟩ |
      ⟨_, _, _, _, _, _, _, _, _, _, _, _, hcall, _⟩ | ⟨_, _, _, _, _, _, _, full, _⟩⟩
    · cases bar.symm.trans path
      cases path'
      revert same
      decide
    · cases hcall
    · revert full
      decide +kernel

/-- The names "coffee" and "/coffee" are different and resolve to one key. -/
theorem additions_do_not_commute :
    let root := FStoredNode.emptyNode
    let first := (Call.addNewPick "coffee" sampleCoordinate).write sampleUid
    let second := (Call.addNewPick "/coffee" sampleCoordinate).write sampleUid
    Stored.Issued sampleUid root (.addNewPick "coffee" sampleCoordinate) first ∧
      Stored.Issued sampleUid root (.addNewPick "/coffee" sampleCoordinate) second ∧
      DifferentPicks sampleUid root (.addNewPick "coffee" sampleCoordinate)
        (.addNewPick "/coffee" sampleCoordinate) ∧
      Stored.listedPicks sampleUid (Stored.apply second (Stored.apply first root)) ≠
        Stored.listedPicks sampleUid (Stored.apply first (Stored.apply second root)) := by
  intro root first second
  have client : (PicksPresenter.create (some sampleUid)).ref =
      accountReference (some sampleUid) := rfl
  refine ⟨.addNewPick client ((addNewPick_client_iff client).mpr ⟨by decide, rfl⟩),
    .addNewPick client ((addNewPick_client_iff client).mpr ⟨by decide, rfl⟩), ?_, ?_⟩
  · unfold DifferentPicks
    decide
  · decide +kernel

end PicksOnMap.Guarantees
