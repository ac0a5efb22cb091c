import Mathlib.Data.List.Basic

/-!
# Equality of Swift strings

Source pin: MapViewController.swift:73. `==` on `String` is canonical equivalence:
two strings are equal when they decompose to the same scalars in canonical order.
The character tables are a parameter; the Hangul syllables, which have no rows in
them, decompose by arithmetic.
-/
namespace PicksOnMap.Source

/-- Full canonical decompositions (a scalar without one is listed as itself) and
canonical combining classes. -/
structure UnicodeData where
  decomposition : Char → List Char
  combiningClass : Char → Nat

def hangulDecomposition? (c : Char) : Option (List Char) :=
  let index := c.toNat - 0xAC00
  if 0xAC00 ≤ c.toNat ∧ index < 11172 then
    let leading := Char.ofNat (0x1100 + index / 588)
    let vowel := Char.ofNat (0x1161 + index % 588 / 28)
    let trailing := Char.ofNat (0x11A7 + index % 28)
    some (if index % 28 = 0 then [leading, vowel] else [leading, vowel, trailing])
  else none

namespace UnicodeData

variable (unicode : UnicodeData)

def decompose (c : Char) : List Char :=
  (hangulDecomposition? c).getD (unicode.decomposition c)

/-- A mark moves behind the marks of lower class that follow it, up to a starter. -/
def insertMark (c : Char) : List Char → List Char
  | [] => [c]
  | next :: rest =>
      if 0 < unicode.combiningClass next ∧
          unicode.combiningClass next < unicode.combiningClass c then
        next :: insertMark c rest
      else c :: next :: rest

def canonicalOrder (chars : List Char) : List Char := chars.foldr unicode.insertMark []

def canonicalDecomposition (string : String) : List Char :=
  unicode.canonicalOrder (string.toList.flatMap unicode.decompose)

/-- `==` on `String`. -/
def equal (a b : String) : Bool :=
  unicode.canonicalDecomposition a == unicode.canonicalDecomposition b

/-- `==` on `String?`. -/
def optionalEqual : Option String → Option String → Bool
  | some a, some b => unicode.equal a b
  | none, none => true
  | _, _ => false

@[simp] theorem optionalEqual_refl (title : Option String) :
    unicode.optionalEqual title title = true := by
  cases title <;> simp [optionalEqual, equal]

/-- Canonically equivalent titles match the same candidates. -/
theorem optionalEqual_congr {a b : Option String} (same : unicode.optionalEqual a b = true)
    (candidate : Option String) :
    unicode.optionalEqual candidate a = unicode.optionalEqual candidate b := by
  cases a with
  | none =>
      cases b with
      | none => rfl
      | some right => cases same
  | some left =>
      cases b with
      | none => cases same
      | some right =>
          have decompositions : unicode.canonicalDecomposition left =
              unicode.canonicalDecomposition right := by
            simpa [optionalEqual, equal] using same
          cases candidate with
          | none => rfl
          | some string => simp only [optionalEqual, equal, decompositions]

end UnicodeData

/-- The rows of the tables for "é" and its combining accent. -/
def acuteData : UnicodeData where
  decomposition c := if c = '\u00e9' then ['e', '\u0301'] else [c]
  combiningClass c := if c = '\u0301' then 230 else 0

end PicksOnMap.Source
