import PicksOnMap.Guarantees.EqualNodes

/-!
# Tracked changes are the difference

Source pin: Pods/FirebaseDatabase, FChildChangeAccumulator.m:35-78;
FIndexedFilter.m:40-128.

What the accumulator holds for a key describes the child before and the child now.
A step that tracks its own difference keeps that, and the accumulator never raises.
-/
namespace PicksOnMap.Source

open Support Support.SortedEntries

variable {K : Type} [LinearOrder K]

variable {numbers : NumberEquality}

namespace FNode

/-- Equal, and both there or both missing. -/
structure Alike (numbers : NumberEquality) (left right : FNode K) : Prop where
  same : Same numbers left right
  empty : left.isEmpty = right.isEmpty

theorem Alike.refl (numbers : NumberEquality) (node : FNode K) : Alike numbers node node :=
  ⟨Same.refl numbers node, rfl⟩

theorem Alike.trans {left middle right : FNode K} (first : Alike numbers left middle)
    (second : Alike numbers middle right) : Alike numbers left right :=
  ⟨first.same.trans second.same, first.empty.trans second.empty⟩

theorem Same.alike {left right : FNode K} (same : Same numbers left right)
    (leftWf : left.WellFormed) (rightWf : right.WellFormed) : Alike numbers left right :=
  ⟨same, same.isEmpty leftWf rightWf⟩

end FNode

open FNode

/-- The change says what became of the child. -/
def Describes (numbers : NumberEquality) (old new : FNode K) : Option (FChange K) → Prop
  | none => Alike numbers old new
  | some (.childRemoved node) =>
      old.isEmpty = false ∧ new.isEmpty = true ∧ Alike numbers node old
  | some (.childAdded node) =>
      old.isEmpty = true ∧ new.isEmpty = false ∧ Alike numbers node new
  | some (.childChanged node oldNode) =>
      old.isEmpty = false ∧ new.isEmpty = false ∧ Alike numbers node new ∧
        Alike numbers oldNode old

theorem Describes.congr {old new newer : FNode K} {change : Option (FChange K)}
    (described : Describes numbers old new change) (alike : Alike numbers new newer) :
    Describes numbers old newer change := by
  unfold Describes at described ⊢
  split at described
  · exact described.trans alike
  · obtain ⟨there, gone, node⟩ := described
    exact ⟨there, alike.empty ▸ gone, node⟩
  · obtain ⟨missing, here, node⟩ := described
    exact ⟨missing, alike.empty ▸ here, node.trans alike⟩
  · obtain ⟨there, here, node, oldNode⟩ := described
    exact ⟨there, alike.empty ▸ here, node.trans alike, oldNode⟩

theorem alike_of_empty {left right : FNode K} (leftEmpty : left.isEmpty = true)
    (rightEmpty : right.isEmpty = true) : Alike numbers left right := by
  rw [eq_emptyNode_of_isEmpty leftEmpty, eq_emptyNode_of_isEmpty rightEmpty]
  exact Alike.refl numbers _

def Tracks (numbers : NumberEquality) (old new : K → FNode K) (changeMap : ChangeMap K) : Prop :=
  ∀ key, Describes numbers (old key) (new key) (get? key changeMap)

theorem tracks_nil (children : K → FNode K) : Tracks numbers children children [] :=
  fun key => Alike.refl numbers (children key)

/-- Tracking a step of one child. -/
theorem trackChildChange_tracks {old middle new : K → FNode K} {changeMap : ChangeMap K}
    (tracks : Tracks numbers old middle changeMap) {key : K} {change : FChange K}
    (described : Describes numbers (middle key) (new key) (some change))
    (others : ∀ other, other ≠ key → Alike numbers (middle other) (new other)) :
    ∃ changeMap', trackChildChange changeMap key change = some changeMap' ∧
      Tracks numbers old new changeMap' := by
  have held := tracks key
  have putTracks : ∀ merged, Describes numbers (old key) (new key) (some merged) →
      Tracks numbers old new (put key merged changeMap) := by
    intro merged now other
    rw [get?_put]
    split
    · next same => exact same ▸ now
    · next apart => exact (tracks other).congr (others other apart)
  unfold trackChildChange
  cases found : get? key changeMap with
  | none =>
      rw [found] at held
      refine ⟨_, rfl, putTracks change ?_⟩
      cases change with
      | childRemoved node =>
          obtain ⟨there, gone, removed⟩ := described
          exact ⟨held.empty ▸ there, gone, removed.trans ⟨held.same.symm, held.empty.symm⟩⟩
      | childAdded node =>
          obtain ⟨missing, here, added⟩ := described
          exact ⟨held.empty ▸ missing, here, added⟩
      | childChanged node oldNode =>
          obtain ⟨there, here, changed, before⟩ := described
          exact ⟨held.empty ▸ there, here, changed,
            before.trans ⟨held.same.symm, held.empty.symm⟩⟩
  | some oldChange =>
      rw [found] at held
      cases change with
      | childRemoved node =>
          obtain ⟨there, gone, removed⟩ := described
          cases oldChange with
          | childRemoved oldNode => exact absurd (held.2.1.symm.trans there) Bool.noConfusion
          | childAdded oldNode =>
              refine ⟨_, rfl, fun other => ?_⟩
              rw [get?_remove]
              split
              · next same => exact same ▸ alike_of_empty held.1 gone
              · next apart => exact (tracks other).congr (others other apart)
          | childChanged newNode oldNode =>
              exact ⟨_, rfl, putTracks _ ⟨held.1, gone, held.2.2.2⟩⟩
      | childAdded node =>
          obtain ⟨missing, here, added⟩ := described
          cases oldChange with
          | childRemoved oldNode =>
              exact ⟨_, rfl, putTracks _ ⟨held.1, here, added, held.2.2⟩⟩
          | childAdded oldNode => exact absurd (held.2.1.symm.trans missing) Bool.noConfusion
          | childChanged newNode oldNode =>
              exact absurd (held.2.1.symm.trans missing) Bool.noConfusion
      | childChanged node oldNode =>
          obtain ⟨there, here, changed, before⟩ := described
          cases oldChange with
          | childRemoved oldNode => exact absurd (held.2.1.symm.trans there) Bool.noConfusion
          | childAdded oldNode => exact ⟨_, rfl, putTracks _ ⟨held.1, here, changed⟩⟩
          | childChanged newNode oldNode =>
              exact ⟨_, rfl, putTracks _ ⟨held.1, here, changed, held.2.2.2⟩⟩

/-- The changes lead from the old children to the new ones, whatever was tracked before. -/
def Leads (numbers : NumberEquality) (old new : K → FNode K) (changes : List (K × FChange K)) :
    Prop :=
  ∀ start changeMap, Tracks numbers start old changeMap →
    ∃ changeMap', trackAll changeMap changes = some changeMap' ∧
      Tracks numbers start new changeMap'

theorem leads_nil {old new : K → FNode K} (alike : ∀ key, Alike numbers (old key) (new key)) :
    Leads numbers old new [] :=
  fun _ changeMap tracks => ⟨changeMap, rfl, fun key => (tracks key).congr (alike key)⟩

theorem Leads.refl (children : K → FNode K) : Leads numbers children children [] :=
  leads_nil fun key => Alike.refl numbers (children key)

theorem Leads.append {old middle new : K → FNode K} {first second : List (K × FChange K)}
    (firstLeads : Leads numbers old middle first) (secondLeads : Leads numbers middle new second) :
    Leads numbers old new (first ++ second) := by
  intro start changeMap tracks
  obtain ⟨between, firstTracked, middleTracks⟩ := firstLeads start changeMap tracks
  obtain ⟨last, secondTracked, newTracks⟩ := secondLeads start between middleTracks
  refine ⟨last, ?_, newTracks⟩
  unfold trackAll at firstTracked secondTracked ⊢
  rw [List.foldlM_append, firstTracked]
  exact secondTracked

/-- One change for each key that differs. -/
theorem leads_of_described {old new : K → FNode K} {changes : List (K × FChange K)}
    (distinct : (changes.map Prod.fst).Nodup)
    (described : ∀ change ∈ changes,
      Describes numbers (old change.1) (new change.1) (some change.2))
    (others : ∀ key, key ∉ changes.map Prod.fst → Alike numbers (old key) (new key)) :
    Leads numbers old new changes := by
  induction changes generalizing old with
  | nil => exact leads_nil fun key => others key (by simp)
  | cons change rest ih =>
      obtain ⟨fresh, restDistinct⟩ := List.nodup_cons.mp distinct
      intro start changeMap tracks
      -- the children once this change is made and the rest is not
      let middle : K → FNode K := fun key => if key = change.1 then new key else old key
      have here : middle change.1 = new change.1 := if_pos rfl
      have elsewhere : ∀ other, other ≠ change.1 → middle other = old other :=
        fun other apart => if_neg apart
      have now := described change List.mem_cons_self
      rw [← here] at now
      obtain ⟨between, tracked, middleTracks⟩ := trackChildChange_tracks tracks now
        fun other apart => elsewhere other apart ▸ Alike.refl numbers (old other)
      have tail : Leads numbers middle new rest := by
        refine ih restDistinct (fun later member => ?_) fun key absent => ?_
        · have apart : later.1 ≠ change.1 := fun same =>
            fresh (same ▸ List.mem_map.mpr ⟨later, member, rfl⟩)
          rw [elsewhere later.1 apart]
          exact described later (List.mem_cons_of_mem _ member)
        · by_cases same : key = change.1
          · rw [same, here]
            exact Alike.refl numbers _
          · rw [elsewhere key same]
            exact others key (by simp [same, absent])
      obtain ⟨last, restTracked, newTracks⟩ := tail start between middleTracks
      refine ⟨last, ?_, newTracks⟩
      unfold trackAll at restTracked ⊢
      rw [List.foldlM_cons, tracked]
      exact restTracked

/-! ## The filter -/

namespace FIndexedFilter

theorem updateChildIn_leads {node new : FNode K} (wf : node.WellFormed) (newWf : new.WellFormed)
    (key : K) (affected : FPath K) :
    Leads numbers node.getImmediateChild
      (updateChildIn numbers node key new affected).1.getImmediateChild
      (updateChildIn numbers node key new affected).2 := by
  by_cases unchanged : Unchanged numbers node key new affected
  · rw [updateChildIn_of_unchanged wf newWf unchanged]
    exact Leads.refl _
  · have others : ∀ other, other ≠ key → Alike numbers (node.getImmediateChild other)
        ((node.updateImmediateChild key new).getImmediateChild other) := by
      intro other apart
      rw [getImmediateChild_updateImmediateChild, if_neg apart]
      exact Alike.refl numbers _
    have here : (node.updateImmediateChild key new).getImmediateChild key = new := by
      rw [getImmediateChild_updateImmediateChild, if_pos rfl]
    have single : ∀ change, Describes numbers (node.getImmediateChild key) new (some change) →
        Leads numbers node.getImmediateChild
          (node.updateImmediateChild key new).getImmediateChild [(key, change)] := by
      intro change described
      refine leads_of_described (by simp) ?_ fun other absent => others other (by simpa using absent)
      intro entry member
      obtain rfl := List.mem_singleton.mp member
      rw [here]
      exact described
    rw [updateChildIn_of_changed wf newWf unchanged]
    have differs : ((FNode.isEqual numbers ((node.getImmediateChild key).getChild affected)
        (new.getChild affected)) && (node.getImmediateChild key).isEmpty == new.isEmpty) = false := by
      rw [← Bool.not_eq_true, Bool.and_eq_true, beq_iff_eq,
        FNode.isEqual_iff_same ((wf.getImmediateChild key).getChild affected)
          (newWf.getChild affected)]
      exact unchanged
    have listed : (updateChildIn numbers node key new affected).2 =
        if new.isEmpty then
          if node.hasChild key then [(key, .childRemoved (node.getImmediateChild key))] else []
        else if (node.getImmediateChild key).isEmpty then [(key, .childAdded new)]
        else [(key, .childChanged new (node.getImmediateChild key))] := by
      unfold updateChildIn
      simp only [differs, Bool.false_eq_true, ↓reduceIte]
      split <;> rfl
    rw [listed]
    cases newEmpty : new.isEmpty with
    | true =>
        cases oldEmpty : (node.getImmediateChild key).isEmpty with
        | true =>
            have absent : node.hasChild key = false := by simp [FNode.hasChild, oldEmpty]
            simp only [↓reduceIte, absent, Bool.false_eq_true]
            refine leads_nil fun other => ?_
            by_cases same : other = key
            · rw [same, here]
              exact alike_of_empty oldEmpty newEmpty
            · exact others other same
        | false =>
            have present : node.hasChild key = true := by simp [FNode.hasChild, oldEmpty]
            simp only [↓reduceIte, present]
            exact single _ ⟨oldEmpty, newEmpty, Alike.refl numbers _⟩
    | false =>
        cases oldEmpty : (node.getImmediateChild key).isEmpty with
        | true =>
            simp only [Bool.false_eq_true, ↓reduceIte]
            exact single _ ⟨oldEmpty, newEmpty, Alike.refl numbers _⟩
        | false =>
            simp only [Bool.false_eq_true, ↓reduceIte]
            exact single _ ⟨oldEmpty, newEmpty, Alike.refl numbers _, Alike.refl numbers _⟩

theorem mem_enumerated {node : FNode K} (wf : node.WellFormed) {child : K × FNode K}
    (member : child ∈ node.enumerated) :
    child.2 = node.getImmediateChild child.1 ∧ child.2.isEmpty = false := by
  obtain _ | @⟨entries, sorted, pruned, each⟩ := wf
  · cases member
  · have found := (mem_iff_get? sorted child.1 child.2).mp member
    exact ⟨by simp [FNode.getImmediateChild, found], pruned child member⟩

theorem enumerated_of_hasChild {node : FNode K} {key : K} (present : node.hasChild key = true) :
    (key, node.getImmediateChild key) ∈ node.enumerated := by
  cases node with
  | leaf value => simp [FNode.hasChild, FNode.getImmediateChild] at present
  | children entries =>
      cases found : get? key entries with
      | none => simp [FNode.hasChild, FNode.getImmediateChild, found] at present
      | some child =>
          have member := mem_of_get? found
          simpa [FNode.getImmediateChild, found, FNode.enumerated] using member

theorem nodup_enumerated {node : FNode K} (wf : node.WellFormed) :
    (node.enumerated.map Prod.fst).Nodup := by
  cases node with
  | leaf value => simp [FNode.enumerated]
  | children entries => exact FNode.nodup_keys wf

/-- What `updateFullNode` tracks for a child of the old node. -/
def removedChange (newSnap : FNode K) (child : K × FNode K) : Option (K × FChange K) :=
  if newSnap.hasChild child.1 then none else some (child.1, .childRemoved child.2)

/-- What it tracks for a child of the new one. -/
def arrivedChange (numbers : NumberEquality) (oldSnap : FNode K) (child : K × FNode K) :
    Option (K × FChange K) :=
  if oldSnap.hasChild child.1 then
    if (oldSnap.getImmediateChild child.1).isEqual numbers child.2 then none
    else some (child.1, .childChanged child.2 (oldSnap.getImmediateChild child.1))
  else some (child.1, .childAdded child.2)

theorem updateFullNode_eq (oldSnap newSnap : FNode K) :
    updateFullNode numbers oldSnap newSnap =
      (newSnap, oldSnap.enumerated.filterMap (removedChange newSnap) ++
        newSnap.enumerated.filterMap (arrivedChange numbers oldSnap)) := rfl

theorem removedChange_key {newSnap : FNode K} {child : K × FNode K} {change : K × FChange K}
    (tracked : removedChange newSnap child = some change) :
    change = (child.1, .childRemoved child.2) ∧ newSnap.hasChild child.1 = false := by
  unfold removedChange at tracked
  split at tracked
  · cases tracked
  · next absent => exact ⟨(Option.some.inj tracked).symm, Bool.eq_false_of_not_eq_true absent⟩

theorem arrivedChange_key {oldSnap : FNode K} {child : K × FNode K} {change : K × FChange K}
    (tracked : arrivedChange numbers oldSnap child = some change) : change.1 = child.1 := by
  unfold arrivedChange at tracked
  split at tracked
  · split at tracked
    · cases tracked
    · exact (congrArg Prod.fst (Option.some.inj tracked)).symm
  · exact (congrArg Prod.fst (Option.some.inj tracked)).symm

omit [LinearOrder K] in
/-- Keys that survive a filter which keeps keys are still distinct. -/
theorem nodup_filterMap_keys {children : List (K × FNode K)}
    (distinct : (children.map Prod.fst).Nodup)
    {tracked : K × FNode K → Option (K × FChange K)}
    (keeps : ∀ {child change}, tracked child = some change → change.1 = child.1) :
    ((children.filterMap tracked).map Prod.fst).Nodup := by
  refine List.pairwise_map.mpr (List.pairwise_filterMap.mpr ?_)
  refine (List.pairwise_map.mp distinct).imp fun apart change first other second same => apart ?_
  rw [← keeps first, ← keeps second, same]

omit [LinearOrder K] in
theorem mem_tracked {children : List (K × FNode K)}
    {tracked : K × FNode K → Option (K × FChange K)} {child : K × FNode K} {change : K × FChange K}
    (member : child ∈ children) (found : tracked child = some change) :
    change.1 ∈ (children.filterMap tracked).map Prod.fst :=
  List.mem_map.mpr ⟨change, List.mem_filterMap.mpr ⟨child, member, found⟩, rfl⟩

theorem updateFullNode_leads {oldSnap newSnap : FNode K} (oldWf : oldSnap.WellFormed)
    (newWf : newSnap.WellFormed) :
    Leads numbers oldSnap.getImmediateChild newSnap.getImmediateChild
      (updateFullNode numbers oldSnap newSnap).2 := by
  rw [updateFullNode_eq]
  refine leads_of_described ?_ ?_ ?_
  · rw [List.map_append, List.nodup_append]
    refine ⟨nodup_filterMap_keys (nodup_enumerated oldWf)
        fun tracked => congrArg Prod.fst (removedChange_key tracked).1,
      nodup_filterMap_keys (nodup_enumerated newWf) arrivedChange_key, ?_⟩
    intro key inRemoved other inArrived same
    obtain ⟨change, removed, rfl⟩ := List.mem_map.mp inRemoved
    obtain ⟨later, arrived, rfl⟩ := List.mem_map.mp inArrived
    obtain ⟨child, member, tracked⟩ := List.mem_filterMap.mp removed
    obtain ⟨newChild, newMember, newTracked⟩ := List.mem_filterMap.mp arrived
    obtain ⟨rfl, absent⟩ := removedChange_key tracked
    obtain ⟨found, full⟩ := mem_enumerated newWf newMember
    have sameKey : child.1 = newChild.1 := same.trans (arrivedChange_key newTracked)
    rw [sameKey] at absent
    simp [FNode.hasChild, ← found, full] at absent
  · intro change member
    rcases List.mem_append.mp member with removed | arrived
    · obtain ⟨child, held, tracked⟩ := List.mem_filterMap.mp removed
      obtain ⟨rfl, absent⟩ := removedChange_key tracked
      obtain ⟨found, full⟩ := mem_enumerated oldWf held
      rw [← found]
      exact ⟨full, by simpa [FNode.hasChild] using absent, Alike.refl numbers _⟩
    · obtain ⟨child, held, tracked⟩ := List.mem_filterMap.mp arrived
      obtain ⟨found, full⟩ := mem_enumerated newWf held
      unfold arrivedChange at tracked
      split at tracked
      · next present =>
          split at tracked
          · cases tracked
          · obtain rfl := Option.some.inj tracked
            rw [← found]
            exact ⟨by simpa [FNode.hasChild] using present, full, Alike.refl numbers _,
              Alike.refl numbers _⟩
      · next missing =>
          obtain rfl := Option.some.inj tracked
          rw [← found]
          exact ⟨by simpa [FNode.hasChild] using missing, full, Alike.refl numbers _⟩
  · intro key absent
    rw [List.map_append, List.mem_append, not_or] at absent
    obtain ⟨notRemoved, notArrived⟩ := absent
    have oldWf' := oldWf.getImmediateChild key
    have newWf' := newWf.getImmediateChild key
    by_cases present : newSnap.hasChild key = true
    · have member := enumerated_of_hasChild present
      by_cases before : oldSnap.hasChild key = true
      · by_cases equal : (oldSnap.getImmediateChild key).isEqual numbers
            (newSnap.getImmediateChild key) = true
        · exact ((FNode.isEqual_iff_same oldWf' newWf').mp equal).alike oldWf' newWf'
        · have tracked : arrivedChange numbers oldSnap (key, newSnap.getImmediateChild key) =
              some (key, .childChanged (newSnap.getImmediateChild key)
                (oldSnap.getImmediateChild key)) := by
            simp only [arrivedChange, before, ↓reduceIte, if_neg equal]
          exact absurd (mem_tracked member tracked) notArrived
      · have tracked : arrivedChange numbers oldSnap (key, newSnap.getImmediateChild key) =
            some (key, .childAdded (newSnap.getImmediateChild key)) := by
          simp only [arrivedChange, if_neg before]
        exact absurd (mem_tracked member tracked) notArrived
    · by_cases before : oldSnap.hasChild key = true
      · have tracked : removedChange newSnap (key, oldSnap.getImmediateChild key) =
            some (key, .childRemoved (oldSnap.getImmediateChild key)) := by
          simp only [removedChange, if_neg present]
        exact absurd (mem_tracked (enumerated_of_hasChild before) tracked) notRemoved
      · exact alike_of_empty (by simpa [FNode.hasChild] using before)
          (by simpa [FNode.hasChild] using present)

end FIndexedFilter

end PicksOnMap.Source
