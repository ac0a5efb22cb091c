import Mathlib.Data.List.Sort
import Mathlib.Data.List.Nodup
import Mathlib.Order.Defs.LinearOrder

/-!
# Sorted association lists

Key/value entries over any linearly ordered key. Lookup, insertion and removal
are total on every pair list: what they observe needs no sortedness premise.
Sortedness is what makes a pair list the only one with its lookups
(`ext_sorted`).
-/
namespace PicksOnMap.Support.SortedEntries

variable {K V W : Type*}

section Lookups

variable [DecidableEq K]

def get? (key : K) : List (K × V) → Option V
  | [] => none
  | (slot, value) :: rest => if key = slot then some value else get? key rest

def remove (key : K) (entries : List (K × V)) : List (K × V) :=
  entries.filter fun pair => pair.1 ≠ key

theorem get?_remove (key query : K) (entries : List (K × V)) :
    get? query (remove key entries) = if query = key then none else get? query entries := by
  induction entries with
  | nil => simp [remove, get?]
  | cons pair rest ih =>
      obtain ⟨slot, held⟩ := pair
      by_cases same : slot = key
      · subst same
        by_cases asked : query = slot
        · simpa [remove, asked] using ih
        · simpa [remove, get?, asked] using ih
      · have kept : remove key ((slot, held) :: rest) =
            (slot, held) :: remove key rest := by
          simp [remove, same]
        by_cases asked : query = slot
        · simp [kept, get?, asked, same]
        · simp [kept, get?, asked, ih]

theorem mem_of_get? {key : K} {value : V} {entries : List (K × V)}
    (found : get? key entries = some value) : (key, value) ∈ entries := by
  induction entries with
  | nil => simp [get?] at found
  | cons pair rest ih =>
      obtain ⟨slot, held⟩ := pair
      by_cases same : key = slot
      · have values : held = value := by simpa [get?, same] using found
        simp [same, values]
      · exact List.mem_cons_of_mem _ (ih (by simpa [get?, same] using found))

theorem isSome_get?_of_mem {key : K} {entries : List (K × V)}
    (member : key ∈ entries.map Prod.fst) : (get? key entries).isSome = true := by
  induction entries with
  | nil => cases member
  | cons pair rest ih =>
      obtain ⟨slot, held⟩ := pair
      by_cases same : key = slot
      · simp [get?, same]
      · rw [get?, if_neg same]
        exact ih ((List.mem_cons.mp member).resolve_left same)

theorem remove_append (key : K) (left right : List (K × V)) :
    remove key (left ++ right) = remove key left ++ remove key right :=
  List.filter_append left right

theorem remove_of_absent {key : K} {entries : List (K × V)}
    (absent : ∀ pair ∈ entries, pair.1 ≠ key) : remove key entries = entries :=
  List.filter_eq_self.mpr fun pair found => by simpa using absent pair found

theorem remove_cons_self (key : K) (value : V) (entries : List (K × V)) :
    remove key ((key, value) :: entries) = remove key entries := by
  simp [remove]

theorem remove_cons_of_ne {key slot : K} (held : V) (entries : List (K × V))
    (different : slot ≠ key) :
    remove key ((slot, held) :: entries) = (slot, held) :: remove key entries := by
  simp [remove, different]

theorem remove_of_get? {key : K} {entries : List (K × V)} (absent : get? key entries = none) :
    remove key entries = entries := by
  induction entries with
  | nil => rfl
  | cons pair rest ih =>
      obtain ⟨slot, held⟩ := pair
      by_cases same : key = slot
      · simp [get?, same] at absent
      · rw [remove_cons_of_ne held rest (Ne.symm same), ih (by simpa [get?, same] using absent)]

/-- Reading what is left after a removal drops the images that `chosen` tells to
belong to the removed key, and keeps the rest in order. -/
theorem filterMap_remove (key : K) (entries : List (K × V)) (read : K → V → Option W)
    (chosen : W → Bool)
    (keyed : ∀ slot value image, read slot value = some image →
      (chosen image = true ↔ slot ≠ key)) :
    (remove key entries).filterMap (fun pair => read pair.1 pair.2) =
      (entries.filterMap fun pair => read pair.1 pair.2).filter chosen := by
  induction entries with
  | nil => rfl
  | cons pair rest ih =>
      obtain ⟨slot, value⟩ := pair
      by_cases same : slot = key
      · have dropped : remove key ((slot, value) :: rest) = remove key rest := by
          simp [remove, same]
        cases seen : read slot value with
        | none => simp [dropped, ih, seen]
        | some image =>
            have unchosen : chosen image = false := by
              simpa [same] using keyed slot value image seen
            simp [dropped, ih, seen, unchosen]
      · have kept : remove key ((slot, value) :: rest) = (slot, value) :: remove key rest := by
          simp [remove, same]
        cases seen : read slot value with
        | none => simp [kept, ih, seen]
        | some image =>
            have isChosen : chosen image = true := (keyed slot value image seen).mpr same
            simp [kept, ih, seen, isChosen]

omit [DecidableEq K] in
theorem keys_of_forall₂ {Related : K × V → K × W → Prop}
    (key : ∀ old new, Related old new → new.1 = old.1) {entries : List (K × V)}
    {entries' : List (K × W)} (each : List.Forall₂ Related entries entries') :
    entries'.map Prod.fst = entries.map Prod.fst := by
  induction each with
  | nil => rfl
  | cons first _ ih => rw [List.map_cons, List.map_cons, key _ _ first, ih]

theorem get?_of_forall₂ {Related : K × V → K × W → Prop}
    (key : ∀ old new, Related old new → new.1 = old.1) {entries : List (K × V)}
    {entries' : List (K × W)} (each : List.Forall₂ Related entries entries') (query : K) :
    (get? query entries = none ∧ get? query entries' = none) ∨
      ∃ old new, get? query entries = some old ∧ get? query entries' = some new ∧
        Related (query, old) (query, new) := by
  induction each with
  | nil => exact .inl ⟨rfl, rfl⟩
  | @cons old new rest rest' first _ ih =>
      obtain ⟨oldKey, oldValue⟩ := old
      obtain ⟨newKey, newValue⟩ := new
      obtain rfl : newKey = oldKey := key _ _ first
      simp only [get?]
      split
      · next same =>
          subst same
          exact .inr ⟨oldValue, newValue, rfl, rfl, first⟩
      · exact ih

end Lookups

variable [LinearOrder K]

/-- Strictly increasing keys; in particular no key occurs twice. -/
def Sorted (entries : List (K × V)) : Prop :=
  entries.Pairwise fun left right => left.1 < right.1

theorem Sorted.of_keys {left : List (K × V)} {right : List (K × W)}
    (sorted : Sorted left) (keys : right.map Prod.fst = left.map Prod.fst) : Sorted right := by
  have increasing : (left.map Prod.fst).Pairwise (· < ·) := List.pairwise_map.mpr sorted
  rw [← keys] at increasing
  exact List.pairwise_map.mp increasing

/-- Insertion replaces the value of a key that is present. -/
def put (key : K) (value : V) : List (K × V) → List (K × V)
  | [] => [(key, value)]
  | (slot, held) :: rest =>
      if key = slot then (key, value) :: rest
      else if key < slot then (key, value) :: (slot, held) :: rest
      else (slot, held) :: put key value rest

theorem get?_put (key query : K) (value : V) (entries : List (K × V)) :
    get? query (put key value entries) =
      if query = key then some value else get? query entries := by
  induction entries with
  | nil => rfl
  | cons pair rest ih =>
      obtain ⟨slot, held⟩ := pair
      by_cases same : key = slot
      · subst same
        by_cases asked : query = key <;> simp [put, get?, asked]
      · by_cases less : key < slot
        · simp [put, get?, same, less]
        · by_cases asked : query = slot
          · simp [put, get?, same, less, asked, Ne.symm same]
          · simp [put, get?, same, less, asked, ih]

/-- Over sorted entries a lookup sees every pair, not only the first of its key. -/
theorem mem_iff_get? {entries : List (K × V)} (sorted : Sorted entries) (key : K) (value : V) :
    (key, value) ∈ entries ↔ get? key entries = some value := by
  refine ⟨fun found => ?_, mem_of_get?⟩
  induction entries with
  | nil => simp at found
  | cons pair rest ih =>
      obtain ⟨slot, held⟩ := pair
      obtain ⟨below, restSorted⟩ := List.pairwise_cons.mp sorted
      rcases List.mem_cons.mp found with same | tail
      · cases same
        simp [get?]
      · have less : slot < key := below _ tail
        simp [get?, less.ne', ih restSorted tail]

theorem mem_put {key : K} {value : V} {entries : List (K × V)} {pair : K × V}
    (found : pair ∈ put key value entries) : pair = (key, value) ∨ pair ∈ entries := by
  induction entries with
  | nil => simpa [put] using found
  | cons first rest ih =>
      obtain ⟨slot, held⟩ := first
      simp only [put] at found
      split at found
      · rcases List.mem_cons.mp found with same | tail
        · exact .inl same
        · exact .inr (List.mem_cons_of_mem _ tail)
      · split at found
        · simpa using found
        · rcases List.mem_cons.mp found with same | tail
          · exact .inr (by simp [same])
          · exact (ih tail).imp_right (List.mem_cons_of_mem _)

theorem put_sorted (key : K) (value : V) {entries : List (K × V)} (sorted : Sorted entries) :
    Sorted (put key value entries) := by
  induction entries with
  | nil => simp [put, Sorted]
  | cons first rest ih =>
      obtain ⟨slot, held⟩ := first
      obtain ⟨below, restSorted⟩ := List.pairwise_cons.mp sorted
      simp only [put]
      split
      · next same =>
          subst same
          exact List.pairwise_cons.mpr ⟨below, restSorted⟩
      · next different =>
          split
          · next less =>
              refine List.pairwise_cons.mpr ⟨fun pair found => ?_, sorted⟩
              rcases List.mem_cons.mp found with same | tail
              · simpa [same] using less
              · exact less.trans (below pair tail)
          · next notLess =>
              have greater : slot < key := lt_of_le_of_ne (not_lt.mp notLess) (Ne.symm different)
              refine List.pairwise_cons.mpr ⟨fun pair found => ?_, ih restSorted⟩
              rcases mem_put found with same | old
              · simpa [same] using greater
              · exact below pair old

theorem remove_sorted (key : K) {entries : List (K × V)} (sorted : Sorted entries) :
    Sorted (remove key entries) :=
  List.Pairwise.filter _ sorted

/-- Sorted entries are determined by the pairs they hold. -/
theorem eq_of_perm {left right : List (K × V)} (leftSorted : Sorted left)
    (rightSorted : Sorted right) (perm : left.Perm right) : left = right := by
  refine perm.eq_of_pairwise (fun a b _ _ less greater => ?_) leftSorted rightSorted
  exact absurd less greater.not_gt

/-- Sorted entries are determined by their lookups. -/
theorem ext_sorted {left right : List (K × V)} (leftSorted : Sorted left)
    (rightSorted : Sorted right) (same : ∀ key, get? key left = get? key right) :
    left = right := by
  have nodup : ∀ {entries : List (K × V)}, Sorted entries → entries.Nodup := by
    intro entries sorted
    exact List.Pairwise.imp (fun less equal => (congrArg Prod.fst equal).not_lt less) sorted
  have members : ∀ pair, pair ∈ left ↔ pair ∈ right := by
    rintro ⟨key, value⟩
    rw [mem_iff_get? leftSorted, mem_iff_get? rightSorted, same]
  exact eq_of_perm leftSorted rightSorted
    ((List.perm_ext_iff_of_nodup (nodup leftSorted) (nodup rightSorted)).mpr members)

/-! ## Entries split at a key -/

theorem sorted_append_cons {left right : List (K × V)} {slot : K} {held : V} :
    Sorted (left ++ (slot, held) :: right) ↔
      Sorted left ∧ Sorted right ∧ (∀ pair ∈ left, pair.1 < slot) ∧
        ∀ pair ∈ right, slot < pair.1 := by
  unfold Sorted
  rw [List.pairwise_append, List.pairwise_cons]
  constructor
  · rintro ⟨leftSorted, ⟨above, rightSorted⟩, across⟩
    exact ⟨leftSorted, rightSorted, fun pair inLeft => across pair inLeft _ List.mem_cons_self,
      above⟩
  · rintro ⟨leftSorted, rightSorted, below, above⟩
    refine ⟨leftSorted, ⟨above, rightSorted⟩, fun low inLeft high inRight => ?_⟩
    rcases List.mem_cons.mp inRight with same | tail
    · exact same ▸ below low inLeft
    · exact (below low inLeft).trans (above high tail)

theorem put_append_of_lt {key slot : K} (value held : V) (left right : List (K × V))
    (less : key < slot) :
    put key value (left ++ (slot, held) :: right) =
      put key value left ++ (slot, held) :: right := by
  induction left with
  | nil => simp [put, less, less.ne]
  | cons pair rest ih =>
      simp only [List.cons_append, put]
      split
      · rfl
      · split
        · rfl
        · rw [ih, List.cons_append]

theorem put_append_of_gt {key : K} (value : V) {left : List (K × V)} (right : List (K × V))
    (below : ∀ pair ∈ left, pair.1 < key) :
    put key value (left ++ right) = left ++ put key value right := by
  induction left with
  | nil => rfl
  | cons pair rest ih =>
      have greater : pair.1 < key := below pair List.mem_cons_self
      have rests := ih fun other inRest => below other (List.mem_cons_of_mem _ inRest)
      simp [put, greater.ne', greater.not_gt, rests]

theorem get?_append_of_lt {key slot : K} (held : V) (left : List (K × V))
    {right : List (K × V)} (above : ∀ pair ∈ right, slot < pair.1) (less : key < slot) :
    get? key (left ++ (slot, held) :: right) = get? key left := by
  induction left with
  | nil =>
      have absent : get? key right = none := by
        by_contra present
        obtain ⟨value, found⟩ := Option.ne_none_iff_exists'.mp present
        exact (above _ (mem_of_get? found)).not_gt less
      simp [get?, less.ne, absent]
  | cons pair rest ih => simp only [List.cons_append, get?, ih]

theorem get?_append_of_gt {key : K} {left : List (K × V)} (right : List (K × V))
    (below : ∀ pair ∈ left, pair.1 < key) :
    get? key (left ++ right) = get? key right := by
  induction left with
  | nil => rfl
  | cons pair rest ih =>
      have greater : pair.1 < key := below pair List.mem_cons_self
      have rests := ih fun other inRest => below other (List.mem_cons_of_mem _ inRest)
      simp [get?, greater.ne', rests]

theorem remove_of_above {key : K} {entries : List (K × V)}
    (above : ∀ pair ∈ entries, key < pair.1) : remove key entries = entries :=
  remove_of_absent fun pair found => (above pair found).ne'

theorem remove_of_below {key : K} {entries : List (K × V)}
    (below : ∀ pair ∈ entries, pair.1 < key) : remove key entries = entries :=
  remove_of_absent fun pair found => (below pair found).ne

theorem put_perm_of_absent {key : K} (value : V) {entries : List (K × V)}
    (absent : get? key entries = none) : (put key value entries).Perm ((key, value) :: entries) := by
  induction entries with
  | nil => exact .refl _
  | cons pair rest ih =>
      simp only [get?, put] at absent ⊢
      split at absent
      · cases absent
      · rename_i different
        rw [if_neg different]
        split
        · exact .refl _
        · exact ((ih absent).cons pair).trans (.swap (key, value) pair rest)

theorem keys_nodup {entries : List (K × V)} (sorted : Sorted entries) :
    (entries.map Prod.fst).Nodup :=
  List.pairwise_map.mpr (sorted.imp fun less => less.ne)

/-- The entries strictly below a key. -/
def below (key : K) (entries : List (K × V)) : List (K × V) :=
  entries.filter fun pair => pair.1 < key

/-- The largest key strictly below a key. -/
def predecessor (key : K) (entries : List (K × V)) : Option K :=
  (below key entries).getLast?.map Prod.fst

theorem below_append_of_le {key slot : K} (held : V) (left : List (K × V))
    {right : List (K × V)} (above : ∀ pair ∈ right, slot < pair.1) (atMost : key ≤ slot) :
    below key (left ++ (slot, held) :: right) = below key left := by
  have none : (right.filter fun pair => decide (pair.1 < key)) = [] := by
    rw [List.filter_eq_nil_iff]
    intro pair found
    simpa using (lt_of_le_of_lt atMost (above pair found)).le
  simp [below, atMost.not_gt, none]

theorem below_of_all {key : K} {entries : List (K × V)}
    (all : ∀ pair ∈ entries, pair.1 < key) : below key entries = entries :=
  List.filter_eq_self.mpr fun pair found => by simpa using all pair found

theorem below_append_of_gt {key slot : K} (held : V) {left : List (K × V)}
    (right : List (K × V)) (all : ∀ pair ∈ left, pair.1 < slot) (less : slot < key) :
    below key (left ++ (slot, held) :: right) = left ++ (slot, held) :: below key right := by
  have lefts : below key left = left := below_of_all fun pair found => (all pair found).trans less
  unfold below at lefts ⊢
  simp [lefts, less]

end PicksOnMap.Support.SortedEntries
