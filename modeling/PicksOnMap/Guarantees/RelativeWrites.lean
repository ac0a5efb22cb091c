import PicksOnMap.Guarantees.LocalView

/-!
# Pending writes seen from one path

Source pin: Pods/FirebaseDatabase, FWriteTree.m:70-72,117-165; FWriteTreeRef.m:62-130;
FCompoundWrite.m:164-177; FOverwrite.m:46-56.

A view asks for the writes below its path. Of the pending writes it sees those at and
below its path there, and of a write above it the part that reaches it, in the order in
which they were made. A write that goes away leaves a view's writes as `Removed` says,
if no older one lies above, at or below it.
-/
namespace PicksOnMap.Source

open Support Support.LeafMap

variable {K : Type} [LinearOrder K] [StringComparator K]

/-- A path as it is seen from another one; everything below is seen at the root. -/
def FPath.seenFrom : FPath K → FPath K → Option (FPath K)
  | [], path => some path
  | _ :: _, [] => some []
  | key :: below, front :: rest => if front = key then FPath.seenFrom below rest else none

/-- A write as it is seen from a path: from below, only its part there. -/
def relativeWrite : FPath K → FPath K × FNode K → Option (FPath K × FNode K)
  | [], write => some write
  | key :: below, ([], node) => relativeWrite below ([], node.getImmediateChild key)
  | key :: below, (front :: rest, node) =>
      if front = key then relativeWrite below (rest, node) else none

omit [StringComparator K] in
theorem relativeWrite_below (path rest : FPath K) (node : FNode K) :
    relativeWrite path (path ++ rest, node) = some (rest, node) := by
  induction path with
  | nil => rfl
  | cons key below ih => simp only [List.cons_append, relativeWrite, ↓reduceIte, ih]

omit [StringComparator K] in
theorem relativeWrite_above (path below : FPath K) (node : FNode K) :
    relativeWrite (path ++ below) (path, node) = some ([], node.getChild below) := by
  induction path with
  | nil =>
      rw [List.nil_append]
      induction below generalizing node with
      | nil => simp [relativeWrite]
      | cons key rest ih => rw [relativeWrite, ih, FNode.getChild_cons]
  | cons key rest ih => simp only [List.cons_append, relativeWrite, ↓reduceIte, ih]

omit [StringComparator K] in
theorem relativeWrite_apart {path other : FPath K}
    (apart : ¬ Support.LeafMap.Comparable other path) (node : FNode K) :
    relativeWrite path (other, node) = none := by
  induction path generalizing other with
  | nil => exact absurd (.inr List.nil_prefix) apart
  | cons key below ih =>
      cases other with
      | nil => exact absurd (.inl List.nil_prefix) apart
      | cons front rest =>
          rw [relativeWrite]
          split
          · next same =>
              subst same
              refine ih fun near => apart ?_
              exact near.imp (fun above => List.cons_prefix_cons.mpr ⟨rfl, above⟩)
                fun under => List.cons_prefix_cons.mpr ⟨rfl, under⟩
          · rfl

omit [StringComparator K] in
theorem relativeWrite_path (path : FPath K) (write : FPath K × FNode K) :
    (relativeWrite path write).map Prod.fst = FPath.seenFrom path write.1 := by
  induction path generalizing write with
  | nil => rfl
  | cons key below ih =>
      obtain ⟨other, node⟩ := write
      cases other with
      | nil =>
          rw [relativeWrite, ih]
          cases below <;> rfl
      | cons front rest =>
          rw [relativeWrite, FPath.seenFrom]
          split
          · exact ih (rest, node)
          · rfl

omit [StringComparator K] in
theorem relativeWrite_wellFormed {path : FPath K} {write relative : FPath K × FNode K}
    (wf : write.2.WellFormed) (seen : relativeWrite path write = some relative) :
    relative.2.WellFormed := by
  induction path generalizing write with
  | nil =>
      obtain rfl := Option.some.inj seen
      exact wf
  | cons key below ih =>
      obtain ⟨other, node⟩ := write
      cases other with
      | nil =>
          rw [relativeWrite] at seen
          have childWf : (([], node.getImmediateChild key) : FPath K × FNode K).2.WellFormed :=
            wf.getImmediateChild key
          exact ih childWf seen
      | cons front rest =>
          rw [relativeWrite] at seen
          split at seen
          · have sameWf : ((rest, node) : FPath K × FNode K).2.WellFormed := wf
            exact ih sameWf seen
          · cases seen

omit [StringComparator K] in
theorem relativeWrite_comparable {path : FPath K}
    {write other relative otherRelative : FPath K × FNode K}
    (seen : relativeWrite path write = some relative)
    (otherSeen : relativeWrite path other = some otherRelative)
    (near : Comparable relative.1 otherRelative.1) : Comparable write.1 other.1 := by
  induction path generalizing write other with
  | nil =>
      obtain rfl := Option.some.inj seen
      obtain rfl := Option.some.inj otherSeen
      exact near
  | cons key below ih =>
      obtain ⟨writePath, node⟩ := write
      obtain ⟨otherPath, otherNode⟩ := other
      cases writePath with
      | nil => exact .inl List.nil_prefix
      | cons front rest =>
          cases otherPath with
          | nil => exact .inr List.nil_prefix
          | cons otherFront otherRest =>
              rw [relativeWrite] at seen otherSeen
              split at seen
              · next same =>
                  split at otherSeen
                  · next otherSame =>
                      subst same otherSame
                      exact (ih seen otherSeen).imp
                        (fun above => List.cons_prefix_cons.mpr ⟨rfl, above⟩)
                        fun under => List.cons_prefix_cons.mpr ⟨rfl, under⟩
                  · cases otherSeen
              · cases seen

namespace FCompoundWrite

theorem childCompoundWriteAtPath_emptyWrite (path : FPath K) :
    emptyWrite.childCompoundWriteAtPath path = emptyWrite := by
  have free : emptyWrite.completeNodeAtPath path = none :=
    completeNodeAtPath_eq_none.mpr fun above _ => nodeAt_emptyWrite above
  refine (canonical_emptyWrite.childCompoundWriteAtPath path).ext canonical_emptyWrite
    fun query => ?_
  rw [child_of_free free, nodeAt_emptyWrite, nodeAt_emptyWrite]

/-- One write, seen from a path. -/
theorem child_addWrite {write : FCompoundWrite K} (canonical : write.Canonical) (path : FPath K)
    (entry : FPath K × FNode K) (wf : entry.2.WellFormed) :
    (write.addWrite entry.2 entry.1).childCompoundWriteAtPath path =
      match relativeWrite path entry with
      | some relative =>
          (write.childCompoundWriteAtPath path).addWrite relative.2 relative.1
      | none => write.childCompoundWriteAtPath path := by
  obtain ⟨other, node⟩ := entry
  by_cases below : path <+: other
  · obtain ⟨rest, rfl⟩ := below
    rw [relativeWrite_below]
    exact FWriteTree.child_addWrite_below canonical wf path rest
  · by_cases above : other <+: path
    · obtain ⟨rest, rfl⟩ := above
      rw [relativeWrite_above]
      exact FWriteTree.child_addWrite_above canonical wf other rest
    · have apart : ¬ Comparable other path := fun near => near.elim above below
      rw [relativeWrite_apart apart]
      exact FWriteTree.child_addWrite_apart canonical wf apart

theorem child_addAll {write : FCompoundWrite K} (canonical : write.Canonical) (path : FPath K)
    {writes : List (FPath K × FNode K)} (wf : ∀ entry ∈ writes, entry.2.WellFormed) :
    (write.addAll writes).childCompoundWriteAtPath path =
      (write.childCompoundWriteAtPath path).addAll (writes.filterMap (relativeWrite path)) := by
  induction writes generalizing write with
  | nil => rfl
  | cons entry rest ih =>
      have entryWf := wf entry List.mem_cons_self
      have step := ih (canonical.addWrite entryWf entry.1)
        fun later member => wf later (List.mem_cons_of_mem _ member)
      rw [child_addWrite canonical path entry entryWf] at step
      unfold FCompoundWrite.addAll at step ⊢
      rw [List.foldl_cons, List.filterMap_cons, step]
      cases relativeWrite path entry <;> rfl

/-- Dropping one of the writes, where no older one lies above, at or below it. -/
theorem removed_of_apart {before after : List (FPath K × FNode K)} {entry : FPath K × FNode K}
    (wf : ∀ other ∈ before ++ entry :: after, other.2.WellFormed)
    (apart : ∀ other ∈ before, ¬ Comparable other.1 entry.1) :
    FViewProcessor.Removed entry.1 (emptyWrite.addAll (before ++ entry :: after))
      (emptyWrite.addAll (before ++ after)) := by
  have beforeWf : ∀ other ∈ before, other.2.WellFormed := fun other member =>
    wf other (List.mem_append_left _ member)
  have entryWf : ∀ other ∈ [entry], other.2.WellFormed := fun other member =>
    wf other (by simp [List.mem_singleton.mp member])
  have afterWf : ∀ other ∈ after, other.2.WellFormed := fun other member =>
    wf other (by simp [member])
  have canonical := canonical_emptyWrite.addAll beforeWf
  have uncovered : ∀ above, above <+: entry.1 → above ≠ entry.1 →
      (emptyWrite.addAll before).nodeAt above = none := by
    intro above onPath _
    cases there : (emptyWrite.addAll before).nodeAt above with
    | none => rfl
    | some held =>
        rcases canonical_emptyWrite.exists_of_addAll beforeWf there with
          ⟨other, member, same⟩ | ⟨old, oldThere⟩
        · exact absurd (.inl (same ▸ onPath)) (apart other member)
        · rw [nodeAt_emptyWrite] at oldThere
          cases oldThere
  have agree := canonical.agreeOutside_addAll uncovered entryWf
    (by simp : ∀ other ∈ [entry], entry.1 <+: other.1)
  have split : before ++ entry :: after = before ++ ([entry] ++ after) := rfl
  rw [split, addAll_append, addAll_append, addAll_append]
  by_cases covers : ∃ other ∈ after, other.1 <+: entry.1
  · have same := agree.addAll_covering afterWf covers
    refine .covered same ?_
    obtain ⟨other, member, onPath⟩ := covers
    have restWf : ∀ other ∈ before ++ after, other.2.WellFormed := fun other member =>
      (List.mem_append.mp member).elim (beforeWf other) (afterWf other)
    obtain ⟨found, value, onOther, held⟩ := FWriteTree.covers_addAll restWf other
      (List.mem_append_right _ member)
    obtain ⟨rest, whole⟩ := onOther.trans onPath
    have complete := (canonical_emptyWrite.addAll restWf).completeNodeAtPath held rest
    rw [whole, addAll_append] at complete
    rw [complete]
    rfl
  · have misses : ∀ other ∈ after, ¬ other.1 <+: entry.1 := fun other member onPath =>
      covers ⟨other, member, onPath⟩
    have agreeAfter := agree.addAll afterWf misses
    refine .uncovered agreeAfter (completeNodeAtPath_eq_none.mpr fun above onPath => ?_)
    cases there : ((emptyWrite.addAll before).addAll after).nodeAt above with
    | none => rfl
    | some held =>
        rcases canonical.exists_of_addAll afterWf there with ⟨other, member, same⟩ | ⟨old, oldThere⟩
        · exact absurd (same ▸ onPath) (misses other member)
        · rcases canonical_emptyWrite.exists_of_addAll beforeWf oldThere with
            ⟨other, member, same⟩ | ⟨older, olderThere⟩
          · exact absurd (.inl (same ▸ onPath)) (apart other member)
          · rw [nodeAt_emptyWrite] at olderThere
            cases olderThere

end FCompoundWrite

end PicksOnMap.Source
