import Mathlib.Data.List.Lex
import Mathlib.Order.Fin.Basic

/-! # Byte-string keys of the ordered key-value store

Every position the plan executor reasons about — a scan's bounds, a split key, the scan key a
document carries — is an FDB key: a byte string compared lexicographically. This module fixes
that key type and the two key successors the plan code calls:

* **`keyAfter k`** — `k ++ "\x00"`, the least key above `k` (the split key of `toDocInfo`).
* **`strinc k`** — the least key above every key prefixed by `k` (the end of the range scans and
  the split key of `doPKScan`); `none` on a key that is empty or all `\xff`, where FDB asserts.
* **`allKeysEnd`** — the sentinel `"\xff"` that ends every scan's range and is the split key of
  a scan that ran to completion. -/

namespace DocLayer

/-- A byte of a key (`uint8_t`). -/
abbrev Byte := Fin 256

/-- **An FDB key**: a byte string, ordered lexicographically (Mathlib's order on `List`). -/
abbrev Key := List Byte

/-- **`keyAfter k`**: the least key strictly above `k`, namely `k` followed by a zero byte. -/
def keyAfter (k : Key) : Key := k ++ [0]

/-- The sentinel `"\xff"`: the end of every scan range and the default split key. -/
def allKeysEnd : Key := [255]

/-- The key `"\x00"`, the lower bound the range scans fall back to without a `begin`. -/
def allKeysBegin : Key := [0]

/-- **FDB's `strinc`**: strip the trailing `\xff` bytes of `k` and increment the last remaining
byte. That is the least key above every key that has `k` as a prefix. FDB asserts that some
byte is left; the model returns `none` there. -/
def strinc (k : Key) : Option Key :=
  match k.reverse.dropWhile (· = 255) with
  | [] => none
  | b :: rest => some ((b + 1) :: rest).reverse

example : strinc [2, 7, 255] = some [2, 8] := by decide
example : strinc [255, 255] = none := by decide

end DocLayer
