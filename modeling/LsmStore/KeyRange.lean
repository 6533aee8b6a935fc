import LsmStore.Bytes

/-!
# Key ranges

Scans take a half-open key range `[lower, upper)` in which an absent bound leaves that side
open. Keys are ordered lexicographically by their bytes. A range whose lower bound is not below
its upper bound is empty.

## Main definitions

* `inRange` — membership of a key
* `emptyRange` — the bounds admit no key
-/

namespace LsmStore

/-- Whether `key` lies in the range `[lower, upper)`, an absent bound leaving that side open. -/
def inRange (lower upper : Option Bytes) (key : Bytes) : Bool :=
  (match lower with | some l => decide (l ≤ key) | none => true) &&
  (match upper with | some u => decide (key < u) | none => true)

/-- Whether a range `[lower, upper)` is empty because its lower bound is not below its upper. -/
def emptyRange (lower upper : Option Bytes) : Bool :=
  match lower, upper with
  | some l, some u => decide (u ≤ l)
  | _, _ => false

end LsmStore
