import PicksOnMap.Source.DatabaseNode

/-!
# References, writes and snapshots

Source pin: Pods/FirebaseDatabase, FIRDatabaseReference.m:93-103,132-146;
FValidation.m:141-176; FSnapshotUtilities.m:53-140; FChildrenNode.m:163-225;
FIRDataSnapshot.m:41-43,90-95.

References of the application are never at the root of the database (`notRoot`),
so the root branch of `child:` is not taken. The `.info` check of a write cannot
fire either: `.info` is not a key. Of `nodeFrom` the model has what the
application hands to it: nothing, or a dictionary of strings and numbers.
-/
namespace PicksOnMap.Source

open Support Support.SortedEntries

structure DatabaseReference where
  path : FPath Key
  notRoot : path ≠ []
  deriving DecidableEq

namespace DatabaseReference

/-- `getBack` of the path. -/
def key (ref : DatabaseReference) : Key := ref.path.getLast ref.notRoot

def child (ref : DatabaseReference) (pathString : String) : Except NSException DatabaseReference :=
  match validatePathString "child:" pathString with
  | .error exception => .error exception
  | .ok () => .ok ⟨childFromString ref.path pathString,
      List.append_ne_nil_of_left_ne_nil ref.notRoot _⟩

def childKey (ref : DatabaseReference) (key : Key) : DatabaseReference :=
  ⟨ref.path ++ [key], List.append_ne_nil_of_left_ne_nil ref.notRoot _⟩

@[simp] theorem key_childKey (ref : DatabaseReference) (key : Key) :
    (ref.childKey key).key = key := by
  simp [DatabaseReference.key, childKey]

@[simp] theorem path_childKey (ref : DatabaseReference) (key : Key) :
    (ref.childKey key).path = ref.path ++ [key] := rfl

theorem child_eq_ok_iff (ref result : DatabaseReference) (pathString : String) :
    ref.child pathString = .ok result ↔
      isValidPathString pathString = true ∧ result.path = ref.path ++ pathPieces pathString := by
  cases accepted : isValidPathString pathString with
  | false => simp [child, validatePathString, accepted]
  | true =>
      simp only [child, validatePathString, accepted, ↓reduceIte, Except.ok.injEq, true_and]
      constructor
      · rintro rfl
        rfl
      · intro same
        cases result
        cases same
        rfl

end DatabaseReference

/-! ## Writes -/

def kFirebaseMaxLeafSize : Nat := 1024 * 1024 * 10

def validateLeafValue (fn : String) (key : Key) : FValue → Except NSException Unit
  | .string s =>
      if s.utf8ByteSize > kFirebaseMaxLeafSize then
        .error ⟨"InvalidFirebaseData", "(" ++ fn ++ ") String exceeds max size of " ++
          toString kFirebaseMaxLeafSize ++ " utf8 bytes: " ++ key.text⟩
      else .ok ()
  | .number d =>
      if d.isNaN then
        .error ⟨"InvalidFirebaseData", "(" ++ fn ++ ") Cannot store NaN at path: " ++ key.text ++ "."⟩
      else .ok ()

/-- The dictionary branch of `nodeFrom`: each value is checked and becomes a leaf. -/
def entriesFrom (fn : String) : List (Key × FValue) → Except NSException (List (Key × FNode Key))
  | [] => .ok []
  | (key, value) :: rest =>
      match validateLeafValue fn key value with
      | .error exception => .error exception
      | .ok () =>
          match entriesFrom fn rest with
          | .error exception => .error exception
          | .ok entries => .ok (put key (.leaf value) entries)

/-- What reaches the repository: the node to put at a path. -/
structure DatabaseWrite where
  path : FPath Key
  node : FNode Key

def DatabaseWrite.apply (write : DatabaseWrite) (root : FNode Key) : FNode Key :=
  root.updateChild write.path write.node

def DatabaseReference.setValue (ref : DatabaseReference) (value : List (Key × FValue)) :
    Except NSException DatabaseWrite :=
  match entriesFrom "setValue:" value with
  | .error exception => .error exception
  | .ok entries => .ok ⟨ref.path, .children entries⟩

def DatabaseReference.removeValue (ref : DatabaseReference) : DatabaseWrite :=
  ⟨ref.path, FNode.emptyNode⟩

/-! ## Snapshots -/

/-- A value as the application receives it. -/
inductive AnyValue where
  | null
  | string (s : String)
  | number (d : Double)
  | array (elements : List AnyValue)
  | dictionary (entries : List (Key × AnyValue))
  deriving Repr

namespace AnyValue

def ofFValue : FValue → AnyValue
  | .string s => .string s
  | .number d => .number d

/-- `as? [String: AnyObject]` -/
def asDictionary : AnyValue → Option (List (Key × AnyValue))
  | .dictionary entries => some entries
  | _ => none

/-- `as? String` -/
def asString : AnyValue → Option String
  | .string s => some s
  | _ => none

/-- `as? Double` -/
def asDouble : AnyValue → Option Double
  | .number d => some d
  | _ => none

end AnyValue

/-- `intForString:`; `scanInteger:` stops at the largest `NSInteger`. -/
def intForString (string : String) : Option Int :=
  if string.toList.isEmpty then none
  else (parseDigits 0 string.toList).map fun num => min num 9223372036854775807

/-- A key with a leading zero other than `0` itself is not an integer key. -/
def integerKey (key : Key) : Option Int :=
  if key.text.toList.head? = some '0' ∧ (utf16Units key.text).length > 1 then none
  else intForString key.text

/-- `maxKey` of the export loop, or `none` once a key is not an integer. -/
def maxIntegerKey (keys : List Key) : Option Int :=
  keys.foldl (fun maxKey key =>
    match maxKey, integerKey key with
    | some m, some keyAsInt => some (if keyAsInt > m then keyAsInt else m)
    | _, _ => none) (some 0)

/-- The end of `valForExport:NO`, once every child has been exported. -/
def exportChildren (obj : List (Key × AnyValue)) : AnyValue :=
  if obj.isEmpty then .null
  else
    match maxIntegerKey (obj.map Prod.fst) with
    | some maxKey =>
        if maxKey < 2 * (obj.length : Int) then
          .array ((List.range (maxKey.toNat + 1)).map fun i =>
            ((obj.find? fun entry => entry.1.text = toString i).map Prod.snd).getD .null)
        else .dictionary obj
    | none => .dictionary obj

mutual

def FNode.val : FNode Key → AnyValue
  | .leaf value => AnyValue.ofFValue value
  | .children entries => exportChildren (FNode.valEntries entries)

def FNode.valEntries : List (Key × FNode Key) → List (Key × AnyValue)
  | [] => []
  | (key, childNode) :: rest => (key, childNode.val) :: FNode.valEntries rest

end

structure DataSnapshot where
  ref : DatabaseReference
  node : FNode Key

namespace DataSnapshot

def value (snapshot : DataSnapshot) : AnyValue := snapshot.node.val

/-- The children in key order, each with its own reference. A leaf has none. -/
def children (snapshot : DataSnapshot) : List DataSnapshot :=
  match snapshot.node with
  | .leaf _ => []
  | .children entries => entries.map fun entry => ⟨snapshot.ref.childKey entry.1, entry.2⟩

end DataSnapshot

/-! ## Reading a field of an exported node -/

theorem FNode.val_eq_string_iff (node : FNode Key) (s : String) :
    node.val.asString = some s ↔ node = .leaf (.string s) := by
  cases node with
  | leaf value => cases value <;> simp [FNode.val, AnyValue.ofFValue, AnyValue.asString]
  | children entries =>
      simp only [FNode.val, exportChildren, reduceCtorEq, iff_false]
      split
      · simp [AnyValue.asString]
      · split
        · split <;> simp [AnyValue.asString]
        · simp [AnyValue.asString]

theorem FNode.val_eq_number_iff (node : FNode Key) (d : Double) :
    node.val.asDouble = some d ↔ node = .leaf (.number d) := by
  cases node with
  | leaf value => cases value <;> simp [FNode.val, AnyValue.ofFValue, AnyValue.asDouble]
  | children entries =>
      simp only [FNode.val, exportChildren, reduceCtorEq, iff_false]
      split
      · simp [AnyValue.asDouble]
      · split
        · split <;> simp [AnyValue.asDouble]
        · simp [AnyValue.asDouble]

theorem FNode.get?_valEntries (key : Key) (entries : List (Key × FNode Key)) :
    get? key (FNode.valEntries entries) = (get? key entries).map FNode.val := by
  induction entries with
  | nil => rfl
  | cons entry rest ih =>
      obtain ⟨slot, child⟩ := entry
      by_cases same : key = slot <;> simp [FNode.valEntries, get?, same, ih]

/-- Once a key of the dictionary is not an integer, it is not exported as an array. -/
theorem maxIntegerKey_of_mem {key : Key} (notInteger : integerKey key = none) {keys : List Key}
    (member : key ∈ keys) : maxIntegerKey keys = none := by
  have stuck : ∀ rest : List Key, rest.foldl (fun maxKey key =>
      match maxKey, integerKey key with
      | some m, some keyAsInt => some (if keyAsInt > m then keyAsInt else m)
      | _, _ => none) (none : Option Int) = none := by
    intro rest
    induction rest with
    | nil => rfl
    | cons head tail ih => exact ih
  obtain ⟨before, after, rfl⟩ := List.append_of_mem member
  simp [maxIntegerKey, List.foldl_append, notInteger, stuck]

/-- What the application finds under a field name of an exported node. A node that
is exported as a leaf, an array or null has no such field anyway. -/
theorem FNode.val_field {key : Key} (notInteger : integerKey key = none) (node : FNode Key) :
    (node.val.asDictionary.bind (get? key)) =
      match node with
      | .leaf _ => none
      | .children entries => (get? key entries).map FNode.val := by
  cases node with
  | leaf value => cases value <;> rfl
  | children entries =>
      change _ = (get? key entries).map FNode.val
      rw [← get?_valEntries]
      cases held : get? key (FNode.valEntries entries) with
      | none =>
          simp only [FNode.val, exportChildren]
          split
          · rfl
          · split
            · split
              · rfl
              · exact held
            · exact held
      | some image =>
          have member : key ∈ (FNode.valEntries entries).map Prod.fst :=
            List.mem_map_of_mem (mem_of_get? held)
          have full : (FNode.valEntries entries).isEmpty = false := by
            cases hentries : FNode.valEntries entries with
            | nil => simp [hentries, get?] at held
            | cons _ _ => rfl
          simp [FNode.val, exportChildren, full, maxIntegerKey_of_mem notInteger member,
            AnyValue.asDictionary, held]

end PicksOnMap.Source
