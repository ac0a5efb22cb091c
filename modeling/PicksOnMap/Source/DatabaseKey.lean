import Mathlib.Data.Prod.Lex
import Mathlib.Data.List.Lex
import Mathlib.Order.Basic
import Mathlib.Data.String.Basic

/-!
# Path strings, keys and their order

Source pin: Pods/FirebaseDatabase, FValidation.m:26-27,52-72; FPath.m:186-201;
FUtilities.m:284-372. A Swift string is a sequence of Unicode scalars, so it is a
Lean `String`; code units are its UTF-16 encoding.

A `Key` can only be built from a string that `isValidKey` accepts. The pieces of
an accepted path string are exactly such strings, so a path is a list of keys.
`Key` keeps keys apart by their exact text. `compareKey` identifies two spellings of
one integer that have the same length (`-0` and `00`): it only looks at the `slot` of
a key, which the order of `Key` refines by the text. Nodes whose children are found
by `compareKey` alone are in `ChildrenNode`.
-/
namespace PicksOnMap.Source

structure NSException where
  name : String
  reason : String
  deriving DecidableEq, Repr

def kInvalidPathCharacters : List Char := "[].#$".toList
def kInvalidKeyCharacters : List Char := "[].#$/".toList

def isValidPathString (pathString : String) : Bool :=
  !pathString.toList.isEmpty && pathString.toList.all fun c => !kInvalidPathCharacters.contains c

def isValidKey (key : String) : Bool :=
  !key.toList.isEmpty && key.toList.all fun c => !kInvalidKeyCharacters.contains c

def validatePathString (fn pathString : String) : Except NSException Unit :=
  if isValidPathString pathString then .ok ()
  else .error ⟨"InvalidPathValidation", "(" ++ fn ++
    ") Must be a non-empty string and not contain '.' '#' '$' '[' or ']'"⟩

structure Key where
  text : String
  valid : isValidKey text = true
  deriving DecidableEq, Repr

def Key.ofString? (text : String) : Option Key :=
  if valid : isValidKey text = true then some ⟨text, valid⟩ else none

abbrev FPath (K : Type) := List K

def componentsSeparatedBySlash (string : String) : List String :=
  (string.toList.splitOn '/').map String.ofList

/-- The pieces `childFromString:` appends. It drops the empty components only; an
accepted path string has no other component that is not a key (`pathPieces_text`). -/
def pathPieces (childPath : String) : FPath Key :=
  (componentsSeparatedBySlash childPath).filterMap Key.ofString?

def childFromString (path : FPath Key) (childPath : String) : FPath Key :=
  path ++ pathPieces childPath

theorem mem_splitOn {separator : Char} {chars piece : List Char}
    (member : piece ∈ chars.splitOn separator) : ∀ c ∈ piece, c ∈ chars ∧ c ≠ separator := by
  induction chars generalizing piece with
  | nil =>
      have empty : piece = [] := by simpa using member
      simp [empty]
  | cons head rest ih =>
      rw [List.splitOn_cons_eq_if_modifyHead] at member
      split at member
      · rcases List.mem_cons.mp member with empty | later
        · simp [empty]
        · intro c inside
          obtain ⟨old, different⟩ := ih later c inside
          exact ⟨List.mem_cons_of_mem _ old, different⟩
      · next notSeparator =>
          cases pieces : rest.splitOn separator with
          | nil => exact absurd pieces (List.splitOn_ne_nil _ _)
          | cons first others =>
              rw [pieces, List.modifyHead_cons] at member
              rcases List.mem_cons.mp member with extended | later
              · subst extended
                intro c inside
                rcases List.mem_cons.mp inside with isHead | old
                · subst isHead
                  exact ⟨List.mem_cons_self, by simpa using notSeparator⟩
                · obtain ⟨held, different⟩ := ih (pieces ▸ List.mem_cons_self) c old
                  exact ⟨List.mem_cons_of_mem _ held, different⟩
              · intro c inside
                obtain ⟨old, different⟩ := ih (pieces ▸ List.mem_cons_of_mem _ later) c inside
                exact ⟨List.mem_cons_of_mem _ old, different⟩

theorem isValidKey_iff (key : String) :
    isValidKey key = true ↔ key.toList ≠ [] ∧ ∀ c ∈ key.toList, c ∉ kInvalidKeyCharacters := by
  simp [isValidKey]

theorem isValidPathString_iff (pathString : String) :
    isValidPathString pathString = true ↔
      pathString.toList ≠ [] ∧ ∀ c ∈ pathString.toList, c ∉ kInvalidPathCharacters := by
  simp [isValidPathString]

theorem mem_kInvalidKeyCharacters (c : Char) :
    c ∈ kInvalidKeyCharacters ↔ c ∈ kInvalidPathCharacters ∨ c = '/' := by
  have slashLast : kInvalidKeyCharacters = kInvalidPathCharacters ++ ['/'] := by decide
  rw [slashLast, List.mem_append, List.mem_singleton]

/-- Every component of an accepted path string is empty or a key. -/
theorem component_valid {pathString component : String}
    (accepted : isValidPathString pathString = true)
    (member : component ∈ componentsSeparatedBySlash pathString) (nonempty : component ≠ "") :
    isValidKey component = true := by
  obtain ⟨piece, split, rfl⟩ := List.mem_map.mp member
  refine (isValidKey_iff _).mpr ⟨?_, fun c inside => ?_⟩
  · intro empty
    exact nonempty (by simpa using empty)
  · rw [String.toList_ofList] at inside
    obtain ⟨held, notSlash⟩ := mem_splitOn split c inside
    rw [mem_kInvalidKeyCharacters, not_or]
    exact ⟨((isValidPathString_iff _).mp accepted).2 c held, notSlash⟩

/-- On an accepted path string the pieces are its non-empty components, in order. -/
theorem pathPieces_text {pathString : String} (accepted : isValidPathString pathString = true) :
    (pathPieces pathString).map Key.text =
      (componentsSeparatedBySlash pathString).filter (· ≠ "") := by
  have each : ∀ components : List String,
      (∀ c ∈ components, c ≠ "" → isValidKey c = true) →
      (components.filterMap Key.ofString?).map Key.text = components.filter (· ≠ "") := by
    intro components valid
    induction components with
    | nil => rfl
    | cons first rest ih =>
        have tail := ih fun c member => valid c (List.mem_cons_of_mem _ member)
        by_cases empty : first = ""
        · subst empty
          simpa [Key.ofString?, show isValidKey "" = false by decide] using tail
        · have good := valid first List.mem_cons_self empty
          simpa [Key.ofString?, good, empty] using tail
  exact each _ fun component member nonempty => component_valid accepted member nonempty

theorem Key.isValidPathString (key : Key) : isValidPathString key.text = true := by
  obtain ⟨nonempty, clean⟩ := (isValidKey_iff _).mp key.valid
  refine (isValidPathString_iff _).mpr ⟨nonempty, fun c inside bad => ?_⟩
  exact clean c inside ((mem_kInvalidKeyCharacters c).mpr (.inl bad))

/-- A key names the one-piece path made of itself. -/
@[simp] theorem Key.pathPieces_text (key : Key) : pathPieces key.text = [key] := by
  have noSlash : '/' ∉ key.text.toList := fun inside =>
    ((isValidKey_iff _).mp key.valid).2 '/' inside (by decide)
  have whole : componentsSeparatedBySlash key.text = [key.text] := by
    simp [componentsSeparatedBySlash, List.splitOn_eq_singleton noSlash]
  simp [pathPieces, whole, Key.ofString?, key.valid]

/-! ## The order of children -/

def utf16UnitsOf (c : Char) : List Nat :=
  if c.toNat < 0x10000 then [c.toNat]
  else [0xD800 + (c.toNat - 0x10000) / 0x400, 0xDC00 + (c.toNat - 0x10000) % 0x400]

def utf16Units (string : String) : List Nat := string.toList.flatMap utf16UnitsOf

/-- The digit loop of `tryParseStringToInt`. -/
def parseDigits (value : Int) : List Char → Option Int
  | [] => some value
  | c :: rest =>
      if c < '0' ∨ c > '9' then none
      else parseDigits (value * 10 + (c.toNat - '0'.toNat : Nat)) rest

def tryParseStringToInt (str : String) : Option Int :=
  let length := (utf16Units str).length
  if length > 11 ∨ length = 0 then none
  else
    let negative := str.toList.head? = some '-'
    if negative ∧ length = 1 then none
    else
      match parseDigits 0 (if negative then str.toList.tail else str.toList) with
      | none => none
      | some parsed =>
          let value := if negative then -parsed else parsed
          if value < -2147483648 ∨ value > 2147483647 then none else some value

/-- `compare:options:NSLiteralSearch`, code unit by code unit. -/
def literalCompare (a b : String) : Ordering :=
  if utf16Units a < utf16Units b then .lt
  else if utf16Units b < utf16Units a then .gt
  else .eq

def compareKey (a b : String) : Ordering :=
  match tryParseStringToInt a, tryParseStringToInt b with
  | some aAsInt, some bAsInt =>
      if aAsInt > bAsInt then .gt
      else if aAsInt < bAsInt then .lt
      else if (utf16Units a).length > (utf16Units b).length then .gt
      else if (utf16Units a).length < (utf16Units b).length then .lt
      else .eq
  | some _, none => .lt
  | none, some _ => .gt
  | none, none => literalCompare a b

/-- What `compareKey` looks at. An integer counts with its value and the length of its
text only, so `-0` and `00` fall into one slot. -/
abbrev KeySlot := ℕ ×ₗ ℤ ×ₗ ℕ ×ₗ List ℕ

def Key.slot (key : Key) : KeySlot :=
  match tryParseStringToInt key.text with
  | some value => toLex (0, toLex (value, toLex ((utf16Units key.text).length, [])))
  | none => toLex (1, toLex (0, toLex (0, utf16Units key.text)))

theorem compareKey_eq_lt_iff (a b : Key) : compareKey a.text b.text = .lt ↔ a.slot < b.slot := by
  unfold compareKey Key.slot
  cases tryParseStringToInt a.text with
  | some aAsInt =>
      cases tryParseStringToInt b.text with
      | some bAsInt =>
          simp only [Prod.Lex.toLex_lt_toLex, lt_self_iff_false, false_or, true_and, and_false,
            or_false]
          split
          · simp; omega
          · split
            · simp; omega
            · split
              · simp; omega
              · split <;> simp <;> omega
      | none => simp [Prod.Lex.toLex_lt_toLex]
  | none =>
      cases tryParseStringToInt b.text with
      | some bAsInt => simp [Prod.Lex.toLex_lt_toLex]
      | none =>
          simp only [literalCompare, Prod.Lex.toLex_lt_toLex, lt_self_iff_false, false_or, true_and]
          split
          · next smaller => simpa using smaller
          · next notSmaller => split <;> simpa using notSmaller

theorem compareKey_eq_eq_iff (a b : Key) : compareKey a.text b.text = .eq ↔ a.slot = b.slot := by
  unfold compareKey Key.slot
  cases tryParseStringToInt a.text with
  | some aAsInt =>
      cases tryParseStringToInt b.text with
      | some bAsInt =>
          simp only [EmbeddingLike.apply_eq_iff_eq, Prod.mk.injEq, true_and, and_true]
          split
          · simp; omega
          · split
            · simp; omega
            · split
              · simp; omega
              · split <;> simp <;> omega
      | none => simp
  | none =>
      cases tryParseStringToInt b.text with
      | some bAsInt => simp
      | none =>
          simp only [literalCompare, EmbeddingLike.apply_eq_iff_eq, Prod.mk.injEq, true_and]
          split
          · next smaller => simpa using smaller.ne
          · next notSmaller =>
              split
              · next greater => simpa using greater.ne'
              · next notGreater =>
                  simpa using le_antisymm (not_lt.mp notGreater) (not_lt.mp notSmaller)

/-- The units of one character are read off the front: a high surrogate is no character. -/
theorem utf16UnitsOf_append_inj {c d : Char} {rest rest' : List Nat}
    (same : utf16UnitsOf c ++ rest = utf16UnitsOf d ++ rest') : c = d ∧ rest = rest' := by
  have valid : ∀ x : Char, x.toNat < 0xD800 ∨ 0xDFFF < x.toNat ∧ x.toNat < 0x110000 :=
    fun x => x.valid
  have hc := valid c
  have hd := valid d
  unfold utf16UnitsOf at same
  split at same <;> split at same <;>
    simp only [List.cons_append, List.nil_append, List.cons.injEq] at same
  · exact ⟨Char.toNat_inj.mp same.1, same.2⟩
  · omega
  · omega
  · exact ⟨Char.toNat_inj.mp (by omega), same.2.2⟩

theorem utf16Units_injective : Function.Injective utf16Units := by
  have lists : ∀ left right : List Char,
      left.flatMap utf16UnitsOf = right.flatMap utf16UnitsOf → left = right := by
    have full : ∀ c : Char, utf16UnitsOf c ≠ [] := by
      intro c
      unfold utf16UnitsOf
      split <;> exact List.cons_ne_nil _ _
    intro left
    induction left with
    | nil =>
        intro right same
        cases right with
        | nil => rfl
        | cons d rest => simp [full] at same
    | cons c left ih =>
        intro right same
        cases right with
        | nil => simp [full] at same
        | cons d right =>
            obtain ⟨rfl, rest⟩ := utf16UnitsOf_append_inj same
            rw [ih right rest]
  exact fun left right same => String.toList_injective (lists _ _ same)

/-- Only integers share a slot with another key. -/
theorem Key.eq_of_slot_eq {a b : Key} (notInteger : tryParseStringToInt b.text = none)
    (same : a.slot = b.slot) : a = b := by
  unfold Key.slot at same
  rw [notInteger] at same
  cases parsed : tryParseStringToInt a.text with
  | some value => simp [parsed] at same
  | none =>
      have texts : a.text = b.text := utf16Units_injective (by simpa [parsed] using same)
      cases a
      cases b
      cases texts
      rfl

/-- The slot, and the text to tell apart the spellings that share it: the order of exact keys
refines `compareKey`, for which they are one. -/
def Key.rank (key : Key) : KeySlot ×ₗ String := toLex (key.slot, key.text)

theorem Key.rank_injective : Function.Injective Key.rank := by
  intro a b same
  have texts : a.text = b.text := congrArg (fun rank => (ofLex rank).2) same
  cases a
  cases b
  cases texts
  rfl

instance : LinearOrder Key :=
  { LinearOrder.lift' Key.rank Key.rank_injective with
    toDecidableEq := inferInstance
    compare_eq_compareOfLessAndEq := fun a b => by
      refine (LinearOrder.compare_eq_compareOfLessAndEq a.rank b.rank).trans ?_
      simp only [compareOfLessAndEq, Key.rank_injective.eq_iff]
      rfl }

theorem Key.lt_iff (a b : Key) : a < b ↔ a.slot < b.slot ∨ a.slot = b.slot ∧ a.text < b.text :=
  Prod.Lex.toLex_lt_toLex

/-- Children come in the order of `compareKey` wherever that separates two keys. -/
theorem Key.lt_of_slot_lt {a b : Key} (less : a.slot < b.slot) : a < b :=
  (Key.lt_iff a b).mpr (.inl less)

end PicksOnMap.Source
