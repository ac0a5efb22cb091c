import Mathlib.Data.List.Infix
import Mathlib.Data.List.Nodup
import Mathlib.Data.Nat.Find

/-!
# The topmost paths of a set

A path of the set is topmost if none strictly above it is in the set; each path of the
set is at or below exactly one. A list that holds them once is kept through additions
and removals by looking at the part below the path only.
-/
namespace PicksOnMap.Support

variable {K : Type*}

def Topmost (set : List K → Prop) (path : List K) : Prop :=
  set path ∧ ∀ above, above <+: path → above ≠ path → ¬ set above

/-- Some path strictly above is in the set. -/
def Overshadowed (set : List K → Prop) (path : List K) : Prop :=
  ∃ above, above <+: path ∧ above ≠ path ∧ set above

/-- The list holds each topmost path of the set, once, and nothing else. -/
structure ListsTopmost (set : List K → Prop) (paths : List (List K)) : Prop where
  nodup : paths.Nodup
  mem_iff : ∀ path, path ∈ paths ↔ Topmost set path

variable {set set' : List K → Prop} {paths : List (List K)} {path : List K}

/-- Every path of the set has a topmost one at or above it. -/
theorem exists_topmost (held : set path) : ∃ above, above <+: path ∧ Topmost set above := by
  classical
  -- The shortest path of the set on the way is topmost.
  have onTheWay : ∃ length, ∃ found, found <+: path ∧ set found ∧ found.length = length :=
    ⟨path.length, path, List.prefix_refl path, held, rfl⟩
  obtain ⟨found, onPath, inSet, short⟩ := Nat.find_spec onTheWay
  refine ⟨found, onPath, inSet, fun above onFound apart there => ?_⟩
  have shorter : above.length < found.length := by
    have bound := onFound.length_le
    have different : above.length ≠ found.length := fun same => apart (onFound.eq_of_length same)
    omega
  exact Nat.find_min onTheWay (short ▸ shorter) ⟨above, onFound.trans onPath, there, rfl⟩

theorem ListsTopmost.congr (lists : ListsTopmost set paths)
    (same : ∀ query, set' query ↔ set query) :
    ListsTopmost set' paths := by
  refine ⟨lists.nodup, fun query => (lists.mem_iff query).trans ?_⟩
  simp only [Topmost, same]

/-- With nothing above a path, the topmost ones from it on are those of the part. -/
theorem topmost_append (clear : ∀ above, above <+: path → above ≠ path → ¬ set above)
    (below : List K) :
    Topmost set (path ++ below) ↔ Topmost (fun query => set (path ++ query)) below := by
  constructor
  · intro topmost
    refine ⟨topmost.1, fun above onBelow apart => ?_⟩
    refine topmost.2 (path ++ above) ((List.prefix_append_right_inj path).mpr onBelow) ?_
    exact fun same => apart (List.append_cancel_left same)
  · intro topmost
    refine ⟨topmost.1, fun above onPath apart held => ?_⟩
    rcases List.prefix_or_prefix_of_prefix onPath (List.prefix_append path below) with
      higher | ⟨inner, rfl⟩
    · by_cases here : above = path
      · subst here
        refine topmost.2 [] List.nil_prefix (fun same => apart ?_) ?_
        · rw [← same, List.append_nil]
        · simpa only [List.append_nil] using held
      · exact clear above higher here held
    · exact topmost.2 inner ((List.prefix_append_right_inj path).mp onPath)
        (fun same => apart (same ▸ rfl)) held

/-- With nothing at the root, the topmost paths are those below its keys. -/
theorem topmost_cons (bare : ¬ set []) (front : K) (rest : List K) :
    Topmost set (front :: rest) ↔ Topmost (fun query => set (front :: query)) rest := by
  have clear : ∀ above, above <+: [front] → above ≠ [front] → ¬ set above := by
    intro above onFront apart
    rcases List.prefix_cons_iff.mp onFront with rfl | ⟨tail, rfl, bottom⟩
    · exact bare
    · exact absurd (congrArg _ (List.prefix_nil.mp bottom)) apart
  exact topmost_append clear rest

/-- Adding or removing a path that another one overshadows changes no topmost path. -/
theorem ListsTopmost.of_overshadowed (lists : ListsTopmost set paths)
    (others : ∀ query, query ≠ path → (set' query ↔ set query))
    (shadowed : Overshadowed set path) : ListsTopmost set' paths := by
  obtain ⟨cover, onPath, coverApart, held⟩ := shadowed
  refine ⟨lists.nodup, fun query => (lists.mem_iff query).trans ?_⟩
  -- What the path itself is in or out of the set does not matter: the cover decides.
  have decided : ∀ {left right : List K → Prop},
      (∀ other, other ≠ path → (left other ↔ right other)) → left cover →
        Topmost left query → Topmost right query := by
    intro left right agree there topmost
    have notPath : query ≠ path := by
      rintro rfl
      exact topmost.2 cover onPath coverApart there
    refine ⟨(agree query notPath).mp topmost.1, fun above onQuery apart inRight => ?_⟩
    by_cases same : above = path
    · subst same
      refine topmost.2 cover (onPath.trans onQuery) (fun coverSame => ?_) there
      have longer := onQuery.length_le
      have shorter := onPath.length_le
      refine coverApart (onPath.eq_of_length ?_)
      have equal : cover.length = query.length := by rw [coverSame]
      omega
    · exact topmost.2 above onQuery apart ((agree above same).mpr inRight)
  exact ⟨decided (fun other apart => (others other apart).symm) held,
    decided others ((others cover coverApart).mpr held)⟩

theorem mem_foldl_erase [DecidableEq K] (stopped : List (List K)) (nodup : paths.Nodup) :
    (stopped.foldl List.erase paths).Nodup ∧
      ∀ query, query ∈ stopped.foldl List.erase paths ↔ query ∈ paths ∧ query ∉ stopped := by
  induction stopped generalizing paths with
  | nil => exact ⟨nodup, by simp⟩
  | cons first rest ih =>
      obtain ⟨restNodup, restMem⟩ := ih (nodup.erase first)
      refine ⟨restNodup, fun query => ?_⟩
      rw [List.foldl_cons, restMem, nodup.mem_erase_iff, List.mem_cons]
      tauto

/-- A path with nothing above it joins the set: it is listed, and what was topmost below
it is struck off. -/
theorem ListsTopmost.add [DecidableEq K] (lists : ListsTopmost set paths)
    (clear : ∀ above, above <+: path → ¬ set above)
    (added : ∀ query, set' query ↔ set query ∨ query = path) {stopped : List (List K)}
    (below : ∀ query, query ∈ stopped ↔
      ∃ inner, query = path ++ inner ∧ Topmost (fun inner => set (path ++ inner)) inner) :
    ListsTopmost set' (stopped.foldl List.erase (path :: paths)) := by
  have absent : path ∉ paths := fun listed =>
    clear path (List.prefix_refl _) ((lists.mem_iff path).mp listed).1
  obtain ⟨nodup, mem⟩ := mem_foldl_erase stopped
    (List.nodup_cons.mpr ⟨absent, lists.nodup⟩)
  refine ⟨nodup, fun query => (mem query).trans ?_⟩
  rw [List.mem_cons, lists.mem_iff, below]
  constructor
  · rintro ⟨rfl | topmost, kept⟩
    · refine ⟨(added query).mpr (.inr rfl), fun above onPath apart held => ?_⟩
      exact ((added above).mp held).elim (clear above onPath) apart
    · refine ⟨(added query).mpr (.inl topmost.1), fun above onPath apart held => ?_⟩
      rcases (added above).mp held with old | rfl
      · exact topmost.2 above onPath apart old
      · obtain ⟨inner, rfl⟩ := onPath
        exact kept ⟨inner, rfl,
          (topmost_append (fun above onPath _ => clear above onPath) inner).mp topmost⟩
  · intro topmost
    have notBelow : path <+: query → query = path := by
      intro onQuery
      by_contra apart
      exact topmost.2 path onQuery (Ne.symm apart) ((added path).mpr (.inr rfl))
    refine ⟨?_, ?_⟩
    · rcases (added query).mp topmost.1 with old | same
      · exact .inr ⟨old, fun above onPath apart held =>
          topmost.2 above onPath apart ((added above).mpr (.inl held))⟩
      · exact .inl same
    · rintro ⟨inner, rfl, innerTop⟩
      have same := notBelow (List.prefix_append path inner)
      refine clear path (List.prefix_refl _) ?_
      have held : set (path ++ inner) := innerTop.1
      rwa [same] at held

/-- A path with nothing above it leaves the set: what is topmost below it is listed
instead. -/
theorem ListsTopmost.remove [DecidableEq K] (lists : ListsTopmost set paths) (held : set path)
    (clear : ∀ above, above <+: path → above ≠ path → ¬ set above)
    (removed : ∀ query, set' query ↔ set query ∧ query ≠ path) {started : List (List K)}
    (startedNodup : started.Nodup)
    (below : ∀ query, query ∈ started ↔
      ∃ inner, query = path ++ inner ∧ Topmost (fun inner => set' (path ++ inner)) inner) :
    ListsTopmost set' (started ++ paths.erase path) := by
  have clear' : ∀ above, above <+: path → above ≠ path → ¬ set' above := by
    intro above onPath apart there
    exact clear above onPath apart ((removed above).mp there).1
  have startedTop : ∀ query, query ∈ started ↔ path <+: query ∧ Topmost set' query := by
    intro query
    rw [below]
    constructor
    · rintro ⟨inner, rfl, topmost⟩
      exact ⟨List.prefix_append path inner, (topmost_append clear' inner).mpr topmost⟩
    · rintro ⟨⟨inner, rfl⟩, topmost⟩
      exact ⟨inner, rfl, (topmost_append clear' inner).mp topmost⟩
  refine ⟨List.nodup_append.mpr ⟨startedNodup, lists.nodup.erase path, ?_⟩, fun query => ?_⟩
  · rintro query listed other kept rfl
    obtain ⟨onQuery, topmost⟩ := (startedTop query).mp listed
    have apart : query ≠ path := ((removed query).mp topmost.1).2
    have old := (lists.mem_iff query).mp (List.mem_of_mem_erase kept)
    exact old.2 path onQuery (Ne.symm apart) held
  · rw [List.mem_append, startedTop, lists.nodup.mem_erase_iff, lists.mem_iff]
    constructor
    · rintro (⟨-, topmost⟩ | ⟨apart, topmost⟩)
      · exact topmost
      · exact ⟨(removed query).mpr ⟨topmost.1, apart⟩, fun above onPath differs there =>
          topmost.2 above onPath differs ((removed above).mp there).1⟩
    · intro topmost
      by_cases onQuery : path <+: query
      · exact .inl ⟨onQuery, topmost⟩
      · obtain ⟨old, apart⟩ := (removed query).mp topmost.1
        refine .inr ⟨apart, old, fun above onPath differs there => ?_⟩
        by_cases same : above = path
        · exact onQuery (same ▸ onPath)
        · exact topmost.2 above onPath differs ((removed above).mpr ⟨there, same⟩)

theorem ListsTopmost.perm {paths' : List (List K)} (lists : ListsTopmost set paths)
    (same : paths.Perm paths') : ListsTopmost set paths' :=
  ⟨same.nodup_iff.mp lists.nodup, fun query => same.mem_iff.symm.trans (lists.mem_iff query)⟩

/-- What is in the set has exactly one listed path at or above it. -/
theorem ListsTopmost.existsUnique (lists : ListsTopmost set paths) (held : set path) :
    ∃! above, above <+: path ∧ above ∈ paths := by
  obtain ⟨above, onPath, topmost⟩ := exists_topmost held
  refine ⟨above, ⟨onPath, (lists.mem_iff above).mpr topmost⟩, ?_⟩
  rintro other ⟨otherOnPath, listed⟩
  have otherTopmost := (lists.mem_iff other).mp listed
  by_contra apart
  rcases List.prefix_or_prefix_of_prefix otherOnPath onPath with higher | deeper
  · exact topmost.2 other higher apart otherTopmost.1
  · exact otherTopmost.2 above deeper (Ne.symm apart) topmost.1

end PicksOnMap.Support
