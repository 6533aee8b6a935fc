import LsmStore.Bytes

/-!
# File names

Tables and log segments are found again by their file names, so names are written from numbers
and read back. A name splits at its last dot into a stem and an extension, and numbers in names
are unsigned 64-bit decimals: an optional plus sign, then one or more digits, leading zeros
allowed.

## Main definitions

* `FileName.splitExtension?` — stem and extension, split at the last dot
* `FileName.splitFirst?` — split at the first occurrence of a character
* `FileName.extension?` — the extension by the path rule: none for a name starting with its
  only dot
* `FileName.parseNumber?` — an unsigned 64-bit decimal
-/

namespace LsmStore

namespace FileName

/-- Splits `s` at the first `c`: the text before it and the text after it. -/
def splitFirst? (c : Char) (s : List Char) : Option (List Char × List Char) :=
  match s.span (· != c) with
  | (before, _ :: after) => some (before, after)
  | (_, []) => none

/-- Splits a name at its last dot into stem and extension; `none` without a dot. -/
def splitExtension? (name : String) : Option (String × String) :=
  match splitFirst? '.' name.toList.reverse with
  | some (ext, stem) => some (String.ofList stem.reverse, String.ofList ext.reverse)
  | none => none

/-- The extension of a file name: the text after the last dot, provided something other than
nothing stands before that dot. -/
def extension? (name : String) : Option String :=
  match splitExtension? name with
  | some (stem, ext) => if stem.isEmpty then none else some ext
  | none => none

/-- The value of a run of decimal digits, most significant first. -/
def digitsValue (ds : List Char) : Nat :=
  ds.foldl (fun acc d => 10 * acc + (d.toNat - 48)) 0

/-- Reads an unsigned 64-bit decimal: an optional plus sign, then at least one digit and
nothing else, with a value below 2^64. -/
def parseNumber? (s : String) : Option Nat :=
  let digits := match s.toList with
    | '+' :: rest => rest
    | cs => cs
  if digits ≠ [] ∧ digits.all Char.isDigit ∧ digitsValue digits < 2 ^ (64 : Nat) then
    some (digitsValue digits)
  else none

end FileName

end LsmStore
