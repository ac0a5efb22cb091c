import PicksOnMap.Source.Account
import PicksOnMap.Source.ChildrenNode

/-!
# The account as a log of writes

Every reachable account tree has the leaves that its history of calls leaves
behind, each call taken as one write below the account. What a listed pick shows
is then decided by the last write that touches its fields, and a leaf two pieces
below the account can only stem from a name that resolves to one piece. So the three
fields of a pick never stem from several additions (`shows_source`).

The log is told for any view `seen` of the keys that does not confuse a field of a
pick with another key: with `id` it is the log of the exact keys, with `Key.slot`
that of the keys as `compareKey` tells them apart.
-/
namespace PicksOnMap.Guarantees

open Source Support Support.SortedEntries

section Log

variable {K : Type} [LinearOrder K] {seen : Key → K}

/-- A call as a write below the account. -/
def effect (seen : Key → K) (call : Call) : LeafMap.Write K FValue :=
  ⟨call.path.map seen,
    match call with
    | .addNewPick name coordinate => some (pickLeaves seen name coordinate)
    | .deletePick _ => none⟩

/-- The node an addition sends has these leaves, whatever is seen of its keys. -/
theorem leafAt_pickNode (separates : SeparatesFields seen) (name : String)
    (coordinate : CLLocationCoordinate2D) :
    ((FStoredNode.ofNode (pickNode name coordinate)).toNode seen).leafAt =
      pickLeaves seen name coordinate := by
  obtain ⟨lat_title, lon_title, lon_lat⟩ := separates.apart
  funext path
  cases path with
  | nil => rfl
  | cons front rest =>
      rw [FNode.leafAt_cons]
      simp only [pickNode, FStoredNode.ofNode, FStoredNode.ofEntries, FStoredNode.toNode,
        FStoredNode.toEntries, FNode.getImmediateChild, get?, pickLeaves, List.cons.injEq]
      by_cases isLatitude : front = seen Pick.latitudeText
      · simp [isLatitude, FNode.leafAt_leaf, lat_title, lon_lat.symm]
      · by_cases isLongitude : front = seen Pick.longitudeText
        · simp [isLongitude, FNode.leafAt_leaf, lon_title, lon_lat]
        · by_cases isTitle : front = seen Pick.titleText
          · simp [isTitle, FNode.leafAt_leaf, lat_title.symm, lon_title.symm]
          · simp [isLatitude, isLongitude, isTitle, FNode.leafAt_emptyNode]

/-- A leaf two pieces below the account is a field of a pick whose name resolved
to the first piece alone: longer names write deeper, the empty path shallower. -/
theorem effect_valueAt_field {call : Call} {key field : K} {value : FValue} :
    (effect seen call).valueAt [key, field] = some value ↔
      ∃ name coordinate, call = .addNewPick name coordinate ∧
        (pathPieces name).map seen = [key] ∧
        pickLeaves seen name coordinate [field] = some value := by
  rw [LeafMap.Write.valueAt_eq_some]
  constructor
  · intro decided
    obtain ⟨rest, subtree, split, hsubtree, hvalue⟩ := decided
    cases call with
    | deletePick deleted => cases hsubtree
    | addNewPick name coordinate =>
        cases hsubtree
        obtain ⟨last, rfl⟩ := pickLeaves_single hvalue
        have pieces : [key] ++ [field] = (pathPieces name).map seen ++ [last] := split
        obtain ⟨hkey, hfield⟩ := List.append_inj' pieces rfl
        cases hfield
        exact ⟨name, coordinate, rfl, hkey.symm, hvalue⟩
  · intro source
    obtain ⟨name, coordinate, rfl, hpieces, hvalue⟩ := source
    refine ⟨[field], pickLeaves seen name coordinate, ?_, rfl, hvalue⟩
    simp [effect, Call.path, hpieces]

/-- An addition decides every path that its own path is comparable with. -/
theorem effect_addNewPick_touches {name : String} {coordinate : CLLocationCoordinate2D}
    {path : List K} :
    (effect seen (.addNewPick name coordinate)).Touches path ↔
      LeafMap.Comparable ((pathPieces name).map seen) path :=
  ⟨fun touches => touches.comparable, fun near => LeafMap.Write.touches_of_comparable rfl near⟩

/-! ## Which picks a call changes -/

/-- A write at `path` replaces or removes the pick at `key`, or one of its fields. -/
def HitsSeen (seen : Key → K) (path : FPath Key) (key : K) : Prop :=
  path.map seen <+: [key] ∨ ∃ field ∈ Pick.fields, [key, seen field] <+: path.map seen

instance (seen : Key → K) (path : FPath Key) (key : K) : Decidable (HitsSeen seen path key) :=
  inferInstanceAs (Decidable (_ ∨ _))

theorem hits_iff_touches (call : Call) (key : K) :
    HitsSeen seen call.path key ↔
      ∃ field ∈ Pick.fields, (effect seen call).Touches [key, seen field] := by
  constructor
  · rintro (above | ⟨field, member, below⟩)
    · have title_mem : Pick.titleText ∈ Pick.fields := by simp [Pick.fields]
      exact ⟨_, title_mem, .inl (above.trans (List.prefix_append [key] [seen Pick.titleText]))⟩
    · cases call with
      | addNewPick name coordinate =>
          exact ⟨field, member, effect_addNewPick_touches.mpr (.inr below)⟩
      | deletePick deleted =>
          have := below.length_le
          simp [Call.path] at this
  · rintro ⟨field, member, above | ⟨_, below⟩⟩
    · have path_le : call.path.map seen <+: [key] ++ [seen field] := above
      rcases List.prefix_concat_iff.mp path_le with same | near
      · exact .inr ⟨field, member, by rw [same]; exact List.prefix_rfl⟩
      · exact .inl near
    · exact .inr ⟨field, member, below⟩

/-- Frame: a call that misses a key leaves what the key shows alone. -/
theorem shows_after_miss (leaves : LeafMap K FValue) (call : Call) {key : K} {title : String}
    {coordinate : CLLocationCoordinate2D} (missed : ¬ HitsSeen seen call.path key) :
    Shows seen ((effect seen call).apply leaves) key title coordinate ↔
      Shows seen leaves key title coordinate := by
  have same : ∀ field ∈ Pick.fields,
      (effect seen call).apply leaves [key, seen field] = leaves [key, seen field] := by
    intro field member
    refine LeafMap.Write.apply_of_not_touches (fun touches => missed ?_) leaves
    exact (hits_iff_touches call key).mpr ⟨field, member, touches⟩
  exact ⟨fun shows => shows.congr same,
    fun shows => shows.congr fun field member => (same field member).symm⟩

theorem effect_addNewPick_field {leaves : LeafMap K FValue} {name : String}
    {coordinate : CLLocationCoordinate2D} {key field : K}
    (resolves : (pathPieces name).map seen = [key]) :
    (effect seen (.addNewPick name coordinate)).apply leaves [key, field] =
      pickLeaves seen name coordinate [field] := by
  have near : LeafMap.Comparable ((pathPieces name).map seen) [key, field] := by
    rw [resolves]
    exact .inl (List.prefix_append [key] [field])
  rw [LeafMap.Write.apply_of_touches (effect_addNewPick_touches.mpr near)]
  refine Option.ext fun value => ?_
  rw [effect_valueAt_field]
  constructor
  · intro source
    obtain ⟨_, _, hcall, _, hleaf⟩ := source
    cases hcall
    exact hleaf
  · intro hleaf
    exact ⟨name, coordinate, rfl, resolves, hleaf⟩

theorem shows_after_add (separates : SeparatesFields seen) (leaves : LeafMap K FValue)
    {name : String} (coordinate : CLLocationCoordinate2D) {key : K}
    (resolves : (pathPieces name).map seen = [key]) :
    Shows seen ((effect seen (.addNewPick name coordinate)).apply leaves) key name coordinate where
  title := by rw [effect_addNewPick_field resolves, pickLeaves_title]
  latitude := by rw [effect_addNewPick_field resolves, separates.pickLeaves_latitude]
  longitude := by rw [effect_addNewPick_field resolves, separates.pickLeaves_longitude]

/-- A pick that is shown after a call that hits it is the one the call adds. -/
theorem shows_after_hit (leaves : LeafMap K FValue) (call : Call) {key : K} {title : String}
    {coordinate : CLLocationCoordinate2D} (hit : HitsSeen seen call.path key)
    (shows : Shows seen ((effect seen call).apply leaves) key title coordinate) :
    ∃ place, call = .addNewPick title place ∧ (pathPieces title).map seen = [key] := by
  obtain ⟨field, member, touched⟩ := (hits_iff_touches call key).mp hit
  have held : ∃ value, (effect seen call).apply leaves [key, seen field] = some value := by
    simp only [Pick.fields, List.mem_cons, List.not_mem_nil, or_false] at member
    rcases member with rfl | rfl | rfl
    · exact ⟨_, shows.title⟩
    · exact ⟨_, shows.latitude⟩
    · exact ⟨_, shows.longitude⟩
  obtain ⟨value, hvalue⟩ := held
  rw [LeafMap.Write.apply_of_touches touched] at hvalue
  obtain ⟨name, place, rfl, resolves, _⟩ := effect_valueAt_field.mp hvalue
  have title := shows.title
  rw [effect_addNewPick_field resolves, pickLeaves_title] at title
  cases title
  exact ⟨place, rfl, resolves⟩

/-! ## Which calls a listed pick shows -/

/-- The last element with a property splits a list in one way only. -/
theorem last_split_unique {α : Type*} (P : α → Prop) {before before' after after' : List α}
    {x y : α} (same : before ++ x :: after = before' ++ y :: after') (hx : P x) (hy : P y)
    (last : ∀ z ∈ after, ¬ P z) (last' : ∀ z ∈ after', ¬ P z) :
    before = before' ∧ x = y ∧ after = after' := by
  rcases List.append_eq_append_iff.mp same with ⟨gap, rfl, split⟩ | ⟨gap, rfl, split⟩
  · cases gap with
    | nil =>
        obtain ⟨rfl, rfl⟩ := List.cons.inj split
        simp
    | cons first rest =>
        obtain ⟨rfl, rfl⟩ := List.cons.inj split
        exact absurd hy (last y (by simp))
  · cases gap with
    | nil =>
        obtain ⟨rfl, rfl⟩ := List.cons.inj split
        simp
    | cons first rest =>
        obtain ⟨rfl, rfl⟩ := List.cons.inj split
        exact absurd hx (last' x (by simp))

/-- A field shown under a key was put there by an addition at that key, and no later
call resolved to the key. -/
theorem field_source {history : List Call} {key field : K} {value : FValue}
    (held : LeafMap.replay (history.map (effect seen)) [key, field] = some value) :
    ∃ before name coordinate after, history = before ++ .addNewPick name coordinate :: after ∧
      (pathPieces name).map seen = [key] ∧ pickLeaves seen name coordinate [field] = some value ∧
      ∀ later ∈ after, later.path.map seen ≠ [key] := by
  obtain ⟨before, write, after, split, hvalue, hlater⟩ := LeafMap.replay_last_touch held
  obtain ⟨pastCalls, restCalls, rfl, rfl, hrest⟩ := List.map_eq_append_iff.mp split
  obtain ⟨call, laterCalls, rfl, rfl, rfl⟩ := List.map_eq_cons_iff.mp hrest
  obtain ⟨name, coordinate, rfl, hpieces, hfield⟩ := effect_valueAt_field.mp hvalue
  refine ⟨pastCalls, name, coordinate, laterCalls, rfl, hpieces, hfield, ?_⟩
  intro later member at_key
  refine hlater _ (List.mem_map_of_mem member) (.inl ?_)
  change later.path.map seen <+: _
  rw [at_key]
  exact List.prefix_append [key] [field]

/-- All three fields shown under a key come from one addition, the last call at that
key. -/
theorem shows_source (separates : SeparatesFields seen) {history : List Call} {key : K}
    {title : String} {coordinate : CLLocationCoordinate2D}
    (shows : Shows seen (LeafMap.replay (history.map (effect seen))) key title coordinate) :
    ∃ before after, history = before ++ .addNewPick title coordinate :: after ∧
      (pathPieces title).map seen = [key] ∧ ∀ later ∈ after, later.path.map seen ≠ [key] := by
  obtain ⟨before, name, place, after, split, hpieces, htitle, hlast⟩ := field_source shows.title
  have sameCall : ∀ {field : K} {value : FValue},
      LeafMap.replay (history.map (effect seen)) [key, field] = some value →
      pickLeaves seen name place [field] = some value := by
    intro field value held
    obtain ⟨before', name', place', after', split', hpieces', hvalue, hlast'⟩ := field_source held
    obtain ⟨_, hcall, _⟩ := last_split_unique (fun call => call.path.map seen = [key])
      (split.symm.trans split') hpieces hpieces' hlast hlast'
    cases hcall
    exact hvalue
  have hlatitude := sameCall shows.latitude
  have hlongitude := sameCall shows.longitude
  rw [pickLeaves_title] at htitle
  rw [separates.pickLeaves_latitude] at hlatitude
  rw [separates.pickLeaves_longitude] at hlongitude
  cases htitle
  have hplace : place = coordinate := by
    cases place
    cases coordinate
    cases hlatitude
    cases hlongitude
    rfl
  subst hplace
  exact ⟨before, after, split, hpieces, hlast⟩

end Log

/-! ## The log of the exact keys -/

/-- A write below the account's reference is a write on the account's tree. -/
theorem accountTree_apply {uid : Key} {root : FNode Key} {write : DatabaseWrite} {path : FPath Key}
    (below : write.path = (accountReference (some uid)).path ++ path) :
    accountTree uid (write.apply root) = (accountTree uid root).updateChild path write.node := by
  have split : write.path = uid :: path := below
  unfold accountTree DatabaseWrite.apply
  rw [split]
  change (root.updateChild (uid :: path) write.node).getChild [uid] =
    (root.getChild [uid]).updateChild path write.node
  have single : ∀ node : FNode Key, node.getChild [uid] = node.getImmediateChild uid := by
    intro node
    rw [FNode.getChild_cons]
    unfold FNode.getChild
    rfl
  rw [single, single, FNode.getImmediateChild_updateChild, if_pos rfl]

theorem toNode_ofNode_pickNode (name : String) (coordinate : CLLocationCoordinate2D) :
    (FStoredNode.ofNode (pickNode name coordinate)).toNode id = pickNode name coordinate := rfl

/-- A call reaches the database as its write below the account. -/
theorem issued_write {uid : Key} {listed : FNode Key} {call : Call} {write : DatabaseWrite}
    (issued : Issued uid listed call write) :
    write.path = (accountReference (some uid)).path ++ call.path ∧
      write.node.WellFormed ∧ FNode.writeOf call.path write.node = effect id call := by
  cases issued with
  | addNewPick client sent =>
      obtain ⟨_, rfl⟩ := (addNewPick_client_iff client).mp sent
      refine ⟨rfl, pickNode_wellFormed _ _, ?_⟩
      rw [effect, List.map_id, ← leafAt_pickNode separatesFields_id, toNode_ofNode_pickNode]
      rfl
  | deletePick sent at_key =>
      obtain ⟨_, _, _, _, rfl⟩ := (PicksPresenter.deletePick_eq_ok_some_iff _ _ _).mp sent
      exact ⟨at_key, .emptyNode, rfl⟩

theorem leafAt_issued {uid : Key} {listed : FNode Key} (root : FNode Key) {call : Call}
    {write : DatabaseWrite}
    (issued : Issued uid listed call write) :
    (accountTree uid (write.apply root)).leafAt =
      (effect id call).apply (accountTree uid root).leafAt := by
  obtain ⟨below, _, same⟩ := issued_write issued
  rw [accountTree_apply below, FNode.leafAt_updateChild, same]

/-- Sorted and pruned at every depth, after any history. -/
theorem Reachable.wellFormed {uid : Key} {history : List Call} {root : FNode Key}
    (reachable : Reachable uid history root) : root.WellFormed := by
  induction reachable with
  | empty => exact .emptyNode
  | call _ _ issued ih _ => exact ih.updateChild (issued_write issued).2.1 _

theorem Reachable.accountTree_wellFormed {uid : Key} {history : List Call} {root : FNode Key}
    (reachable : Reachable uid history root) : (accountTree uid root).WellFormed :=
  (Reachable.wellFormed reachable).getChild _

/-- The reachable trees refine the replay of their histories. -/
theorem Reachable.leafAt_eq_replay {uid : Key} {history : List Call} {root : FNode Key}
    (reachable : Reachable uid history root) :
    (accountTree uid root).leafAt = LeafMap.replay (history.map (effect id)) := by
  induction reachable with
  | empty =>
      funext path
      exact FNode.leafAt_emptyNode path
  | call _ _ issued ih _ =>
      rw [leafAt_issued _ issued, ih]
      simp [LeafMap.replay]

/-- The title shown under a key resolves to that key, so it determines the key. -/
theorem Reachable.pathPieces_title {uid : Key} {history : List Call} {root : FNode Key}
    (reachable : Reachable uid history root) {key : Key} {title : String}
    {coordinate : CLLocationCoordinate2D}
    (shows : Shows id (accountTree uid root).leafAt key title coordinate) :
    pathPieces title = [key] := by
  rw [Reachable.leafAt_eq_replay reachable] at shows
  obtain ⟨_, _, _, hpieces, _⟩ := shows_source separatesFields_id shows
  rwa [List.map_id] at hpieces

/-- No two listed picks have the same title. -/
theorem Reachable.titles_nodup {uid : Key} {history : List Call} {root : FNode Key}
    (reachable : Reachable uid history root) :
    (listedPicks uid root).Pairwise fun earlier later => earlier.title ≠ later.title := by
  have wf := Reachable.accountTree_wellFormed reachable
  have sorted := listedPicks_sorted wf
  refine sorted.imp_of_mem ?_
  rintro earlier later earlierListed laterListed ⟨low, high, hlow, hhigh, less⟩
  intro same
  obtain ⟨key, title, place, shows, rfl⟩ := (mem_listedPicks wf earlier).mp earlierListed
  obtain ⟨key', title', place', shows', rfl⟩ := (mem_listedPicks wf later).mp laterListed
  have titles : title = title' := by simpa [listedPick] using same
  have keys : [key] = [key'] := by
    rw [← Reachable.pathPieces_title reachable shows,
      ← Reachable.pathPieces_title reachable shows', titles]
  simp only [key_listedPick, Option.some.injEq] at hlow hhigh
  subst hlow hhigh
  cases keys
  exact less.false

/-- A write at `path` replaces or removes the pick at `key`, or one of its fields. -/
def Hits (path : FPath Key) (key : Key) : Prop :=
  path <+: [key] ∨ ∃ field ∈ Pick.fields, [key, field] <+: path

instance (path : FPath Key) (key : Key) : Decidable (Hits path key) :=
  inferInstanceAs (Decidable (_ ∨ _))

theorem hitsSeen_id_iff (path : FPath Key) (key : Key) : HitsSeen id path key ↔ Hits path key := by
  simp [HitsSeen, Hits]

end PicksOnMap.Guarantees
