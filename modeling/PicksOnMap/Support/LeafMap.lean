import Mathlib.Data.List.Infix

/-!
# Stores addressed by paths

A tree-shaped store seen only through its leaves: the value at each path that
ends in a leaf. A write either puts a whole subtree at a path or removes what is
there. What a write does at one path is `Touches` and `valueAt`, neither of which
looks at the store, so the order of two writes and the effect of a whole log are
both decided path by path.
-/
namespace PicksOnMap.Support

variable {K V : Type*}

abbrev LeafMap (K V : Type*) := List K → Option V

namespace LeafMap

/-- `subtree = none` removes; `some` replaces everything at and below `path`. -/
structure Write (K V : Type*) where
  path : List K
  subtree : Option (LeafMap K V)

/-- One path runs through the other. -/
def Comparable (p q : List K) : Prop := p <+: q ∨ q <+: p

/-- The paths whose value the write decides: those at or below its own path and,
when it puts a subtree, those on the way to it, which can no longer be leaves. -/
def Write.Touches (write : Write K V) (query : List K) : Prop :=
  write.path <+: query ∨ (write.subtree.isSome ∧ query <+: write.path)

theorem Write.Touches.comparable {write : Write K V} {query : List K}
    (touches : write.Touches query) : Comparable write.path query :=
  touches.imp_right And.right

theorem Write.touches_of_comparable {write : Write K V} {query : List K}
    (puts : write.subtree.isSome) (near : Comparable write.path query) :
    write.Touches query :=
  near.imp_right fun below => ⟨puts, below⟩

theorem Comparable.symm {p q : List K} (comparable : Comparable p q) : Comparable q p :=
  Or.symm comparable

/-- Of two writes apart from each other, a path below one is not touched by the other. -/
theorem Write.not_below_of_apart {write other : Write K V} {query : List K}
    (apart : ¬ Comparable write.path other.path) (touched : other.Touches query) :
    ¬ write.path <+: query := by
  intro below
  rcases touched with under | ⟨-, above⟩
  · exact apart (List.prefix_or_prefix_of_prefix below under)
  · exact apart (.inl (below.trans above))

variable [DecidableEq K]

instance (write : Write K V) (query : List K) : Decidable (write.Touches query) :=
  inferInstanceAs (Decidable (_ ∨ (_ ∧ _)))

def Write.valueAt (write : Write K V) (query : List K) : Option V :=
  if write.path <+: query then
    write.subtree.bind fun subtree => subtree (query.drop write.path.length)
  else none

def Write.apply (write : Write K V) (store : LeafMap K V) : LeafMap K V := fun query =>
  if write.Touches query then write.valueAt query else store query

def empty : LeafMap K V := fun _ => none

/-- The store a log of writes leaves behind, oldest write first. -/
def replay (log : List (Write K V)) : LeafMap K V :=
  log.foldl (fun store write => write.apply store) empty

theorem Write.apply_of_touches {write : Write K V} {query : List K}
    (touches : write.Touches query) (store : LeafMap K V) :
    write.apply store query = write.valueAt query := by
  simp [Write.apply, touches]

theorem Write.apply_of_not_touches {write : Write K V} {query : List K}
    (untouched : ¬ write.Touches query) (store : LeafMap K V) :
    write.apply store query = store query := by
  simp [Write.apply, untouched]

/-- A value the write leaves behind comes from its subtree, at the rest of the path. -/
theorem Write.valueAt_eq_some {write : Write K V} {query : List K} {value : V} :
    write.valueAt query = some value ↔
      ∃ rest subtree, query = write.path ++ rest ∧ write.subtree = some subtree ∧
        subtree rest = some value := by
  constructor
  · intro seen
    unfold Write.valueAt at seen
    split at seen
    · next below =>
        obtain ⟨rest, rfl⟩ := below
        obtain ⟨subtree, hsubtree, hvalue⟩ := Option.bind_eq_some_iff.mp seen
        exact ⟨rest, subtree, rfl, hsubtree, by simpa using hvalue⟩
    · cases seen
  · intro placed
    obtain ⟨rest, subtree, rfl, hsubtree, hvalue⟩ := placed
    simp [Write.valueAt, hsubtree, hvalue]

/-- A write whose path ends strictly below `query` leaves no leaf there. -/
theorem Write.valueAt_of_not_below {write : Write K V} {query : List K}
    (apart : ¬ write.path <+: query) : write.valueAt query = none := by
  simp [Write.valueAt, apart]

/-- Two writes commute at a path exactly when they do not both decide its value,
or decide it alike. The store they start from plays no part. -/
theorem Write.apply_comm_at_iff (first second : Write K V) (store : LeafMap K V)
    (query : List K) :
    second.apply (first.apply store) query = first.apply (second.apply store) query ↔
      (first.Touches query → second.Touches query →
        first.valueAt query = second.valueAt query) := by
  by_cases hfirst : first.Touches query
  · by_cases hsecond : second.Touches query
    · rw [apply_of_touches hsecond, apply_of_touches hfirst]
      exact ⟨fun same _ _ => same.symm, fun same => (same hfirst hsecond).symm⟩
    · rw [apply_of_not_touches hsecond, apply_of_touches hfirst, apply_of_touches hfirst]
      exact ⟨fun _ _ touched => absurd touched hsecond, fun _ => rfl⟩
  · rw [apply_of_not_touches hfirst]
    by_cases hsecond : second.Touches query
    · rw [apply_of_touches hsecond, apply_of_touches hsecond]
      exact ⟨fun _ touched => absurd touched hfirst, fun _ => rfl⟩
    · rw [apply_of_not_touches hsecond, apply_of_not_touches hsecond,
        apply_of_not_touches hfirst]
      exact ⟨fun _ touched => absurd touched hfirst, fun _ => rfl⟩

/-- Whatever a log leaves at a path was put there by its last write touching it. -/
theorem replay_last_touch {log : List (Write K V)} {query : List K} {value : V}
    (held : replay log query = some value) :
    ∃ before write after, log = before ++ write :: after ∧
      write.valueAt query = some value ∧ ∀ later ∈ after, ¬ later.Touches query := by
  induction log using List.reverseRecOn with
  | nil => cases held
  | append_singleton earlier last ih =>
      have step : replay (earlier ++ [last]) = last.apply (replay earlier) := by
        simp [replay]
      rw [step] at held
      by_cases touched : last.Touches query
      · rw [Write.apply_of_touches touched] at held
        exact ⟨earlier, last, [], rfl, held, by simp⟩
      · rw [Write.apply_of_not_touches touched] at held
        obtain ⟨before, write, after, rfl, hvalue, hlater⟩ := ih held
        refine ⟨before, write, after ++ [last], by simp, hvalue, ?_⟩
        intro later member
        rcases List.mem_append.mp member with old | new
        · exact hlater later old
        · rwa [List.mem_singleton.mp new]

/-- Below a common start of the paths, a write acts as the write at the rest of its path. -/
theorem Write.apply_append (start path query : List K) (subtree : Option (LeafMap K V))
    (store : LeafMap K V) :
    (Write.mk (start ++ path) subtree).apply store (start ++ query) =
      (Write.mk path subtree).apply (fun below => store (start ++ below)) query := by
  have touches : (Write.mk (start ++ path) subtree).Touches (start ++ query) ↔
      (Write.mk path subtree).Touches query := by
    simp only [Write.Touches, List.prefix_append_right_inj]
  have values : (Write.mk (start ++ path) subtree).valueAt (start ++ query) =
      (Write.mk path subtree).valueAt query := by
    simp only [Write.valueAt, List.prefix_append_right_inj, List.length_append,
      List.drop_length_add_append]
  simp only [Write.apply, touches, values]

/-! ## Writes laid over a store -/

/-- The store under the writes, oldest write first. -/
def overlay (writes : List (Write K V)) (store : LeafMap K V) : LeafMap K V :=
  writes.foldl (fun store write => write.apply store) store

/-- No write lies at or below another one. -/
def PrefixFree (writes : List (Write K V)) : Prop :=
  writes.Pairwise fun first second => ¬ Comparable first.path second.path

theorem overlay_cons (write : Write K V) (writes : List (Write K V)) (store : LeafMap K V) :
    overlay (write :: writes) store = overlay writes (write.apply store) := rfl

theorem overlay_of_not_touches {writes : List (Write K V)} {query : List K}
    (untouched : ∀ write ∈ writes, ¬ write.Touches query) (store : LeafMap K V) :
    overlay writes store query = store query := by
  induction writes generalizing store with
  | nil => rfl
  | cons write rest ih =>
      rw [overlay_cons, ih fun later member => untouched later (List.mem_cons_of_mem _ member)]
      exact Write.apply_of_not_touches (untouched write List.mem_cons_self) store

/-- Laid over two stores that agree at a path, writes show the same there. -/
theorem overlay_congr (writes : List (Write K V)) {left right : LeafMap K V} {query : List K}
    (same : left query = right query) : overlay writes left query = overlay writes right query := by
  induction writes generalizing left right with
  | nil => exact same
  | cons write rest ih =>
      rw [overlay_cons, overlay_cons]
      refine ih ?_
      simp only [Write.apply, same]

/-- Over writes apart from each other the order does not show: a path holds what
the write touching it decides. -/
theorem overlay_of_touches {writes : List (Write K V)} {write : Write K V} {query : List K}
    (apart : PrefixFree writes) (member : write ∈ writes) (touched : write.Touches query)
    (store : LeafMap K V) : overlay writes store query = write.valueAt query := by
  induction writes generalizing write store with
  | nil => cases member
  | cons first rest ih =>
      obtain ⟨firstApart, restApart⟩ := List.pairwise_cons.mp apart
      rw [overlay_cons]
      rcases List.mem_cons.mp member with rfl | later
      · by_cases again : ∃ other ∈ rest, other.Touches query
        · obtain ⟨other, otherMember, otherTouches⟩ := again
          have separate := firstApart other otherMember
          have notBelow := Write.not_below_of_apart separate otherTouches
          have otherNotBelow :=
            Write.not_below_of_apart (fun near => separate near.symm) touched
          rw [ih restApart otherMember otherTouches, Write.valueAt_of_not_below notBelow,
            Write.valueAt_of_not_below otherNotBelow]
        · rw [overlay_of_not_touches (fun other found touches => again ⟨other, found, touches⟩),
            Write.apply_of_touches touched]
      · exact ih restApart later touched _

end LeafMap

end PicksOnMap.Support
