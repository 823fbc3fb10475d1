import DocLayer.Predicate
import Mathlib.Data.List.Sort

/-! # The index deduplication test

An index over an array field holds one entry per element, so an index scan meets a document
once per entry in its range. `deduplicateIndexStream` keeps a document only at the entry it
decides is the document's last in the scan, by one of two tests:

* **`simpleWouldBeLast`** — one-field index: the encoded values of the field, sorted; the
  greatest one below the scan's upper bound must prefix the scan key.
* **`compoundWouldBeLast`** — the same test over the concatenations of the Cartesian product
  of the per-field values (`cartesianKeys`).

Values are identified with their encoded key parts (`DataValue::encode_key_part`), so a
field's values are a list of keys. -/

namespace DocLayer

/-- **The greatest key part below the upper bound**: sort the parts, walk them from the top
and take the first one below `indexUpperBound`; the empty string if there is none. -/
def lastBelow (parts : List Key) (indexUpperBound : Key) : Key :=
  ((parts.insertionSort (· ≤ ·)).reverse.find? (· < indexUpperBound)).getD []

/-- **`simpleWouldBeLast`** for a one-field index: true when the document has exactly one
value, otherwise whether the scan key starts with the greatest encoded value below the scan's
upper bound. -/
def simpleWouldBeLast (values : List Key) (scanKey indexUpperBound : Key) : Bool :=
  if values.length = 1 then true
  else (lastBelow values indexUpperBound).isPrefixOf scanKey

/-- **The concatenated key parts of a compound index entry**: one key part from each field's
values, concatenated in field order, over the whole Cartesian product. -/
def cartesianKeys : List (List Key) → List Key
  | [] => [[]]
  | values :: rest => values.flatMap fun v => (cartesianKeys rest).map (v ++ ·)

/-- **`compoundWouldBeLast`** for a compound index: true when the Cartesian product of the
per-field values has exactly one element, otherwise the test of `simpleWouldBeLast` over the
concatenations. -/
def compoundWouldBeLast (values : List (List Key)) (scanKey indexUpperBound : Key) : Bool :=
  if (values.map List.length).foldl (· * ·) 1 = 1 then true
  else (lastBelow (cartesianKeys values) indexUpperBound).isPrefixOf scanKey

/-- **The test `deduplicateIndexStream` applies**: `simpleWouldBeLast` on a one-field index,
`compoundWouldBeLast` otherwise, on the values of each key field. -/
def wouldBeLast (index : IndexInfo) (fieldValues : Key → List Key) (scanKey indexUpperBound : Key) :
    Bool :=
  if index.size = 1 then
    simpleWouldBeLast (fieldValues (index.indexKeys.headD [])) scanKey indexUpperBound
  else compoundWouldBeLast (index.indexKeys.map fieldValues) scanKey indexUpperBound

example : lastBelow [[3], [1], [2]] [3] = [2] := by decide
example : simpleWouldBeLast [[3], [1], [2]] [2, 9] [3] = true := by decide

end DocLayer
