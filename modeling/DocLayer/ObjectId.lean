import DocLayer.LastEntry
import Mathlib.Data.List.Basic
import Mathlib.Algebra.Group.Fin.Basic

/-! # The document id of an index build's progress marker

When `scanAndBuildIndex` resumes a build whose scan was stopped, it writes into the index's
metadata document which document it had reached. It takes the scan's begin key, a successor of
that document's encoded id, and undoes the successor with `unstrincObjectId`; where that throws,
the marker says `"unknown"`. A primary key scan resumes at `strinc` of the last id it read, a
non-isolated scan at `keyAfter` of its last key.

* **`ObjectIdCodes.reduceSize`** — the `switch` on the id's type code.
* **`unstrincObjectId`** — the function, `none` where it throws.
* **`unstrincObjectId_recovers_id`** — exactly which ids it gives back from either successor:
  from `strinc id` when the id neither ends in `\xff` nor has the type's reduced length, from
  `keyAfter id` only when the id is one byte shorter than that length. -/

namespace DocLayer

/-- The `DVTypeCode`s of the three id types `unstrincObjectId` accepts: numbers, object ids and
dates. Their byte values live in the data-value header, not in this source. -/
structure ObjectIdCodes where
  number : Byte
  oid : Byte
  date : Byte
  deriving DecidableEq, Repr

/-- **The `switch` of `unstrincObjectId`** on a key part's type code: the size at which the
branch sets `reduceLength`, or `none` for `default`, which throws `unsupported_operation`. -/
def ObjectIdCodes.reduceSize (c : ObjectIdCodes) (code : Byte) : Option Nat :=
  if code = c.number then some 12
  else if code = c.oid then some 14
  else if code = c.date then some 10
  else none

/-- **`unstrincObjectId`**: at the type's `reduceLength` size drop the last byte, otherwise
decrement it (as a `uint8_t`, so `\x00` wraps to `\xff`). Every branch of the `switch` that does
not throw sets `shouldBeNullTerminated` to false. The source reads `encodedKeyPart[0]` without a
size check; the model throws on the empty key. -/
def unstrincObjectId (c : ObjectIdCodes) (encodedKeyPart : Key) : Option Key := do
  let size ← c.reduceSize (← encodedKeyPart.head?)
  let shouldBeNullTerminated := false
  if encodedKeyPart.length = size then
    pure encodedKeyPart.dropLast
  else if !shouldBeNullTerminated || encodedKeyPart.getLast? = some 1 then
    pure (encodedKeyPart.modifyLast (· - 1))
  else
    pure encodedKeyPart

example : unstrincObjectId ⟨1, 7, 9⟩ [1, 5, 0] = some [1, 5, 255] := by decide

variable {c : ObjectIdCodes} {code : Byte} {size : Nat}

theorem unstrincObjectId_of_code {k : Key} (hcode : k.head? = some code)
    (hsize : c.reduceSize code = some size) :
    unstrincObjectId c k = some (if k.length = size then k.dropLast else k.modifyLast (· - 1)) := by
  simp only [unstrincObjectId, hcode, hsize, Option.bind_eq_bind, Option.some_bind,
    Bool.not_false, Bool.true_or, ite_true]
  split <;> rfl

theorem unstrincObjectId_length_le {k r : Key} (h : unstrincObjectId c k = some r) :
    r.length ≤ k.length := by
  cases hcode : k.head? with
  | none => simp [unstrincObjectId, hcode] at h
  | some code =>
    cases hsize : c.reduceSize code with
    | none => simp [unstrincObjectId, hcode, hsize] at h
    | some size =>
      rw [unstrincObjectId_of_code hcode hsize, Option.some.injEq] at h
      subst h
      split
      · simp
      · rcases List.eq_nil_or_concat k with rfl | ⟨L, b, rfl⟩
        · rfl
        · simp [List.modifyLast_append_one]

theorem strinc_concat {l : Key} {b : Byte} (hb : b ≠ 255) : strinc (l ++ [b]) = some (l ++ [b + 1]) := by
  simp [strinc, hb]

theorem head?_concat_of_ne_nil {l : Key} (hl : l ≠ []) (b : Byte) : (l ++ [b]).head? = l.head? := by
  cases l <;> simp_all

/-- From `strinc id` the id comes back exactly when `strinc` only incremented its last byte and
that byte is not dropped instead. -/
theorem unstrincObjectId_strinc_iff {id : Key} (hcode : id.head? = some code)
    (hsize : c.reduceSize code = some size) (hlen : 2 ≤ id.length) :
    (strinc id).bind (unstrincObjectId c) = some id ↔ id.getLast? ≠ some 255 ∧ id.length ≠ size := by
  constructor
  · intro h
    obtain ⟨k, hk, hu⟩ := Option.bind_eq_some.1 h
    obtain ⟨p, b, n, rfl, hb, rfl⟩ := strinc_eq_some hk
    have hn : n = 0 := by
      have := unstrincObjectId_length_le hu
      simp at this
      omega
    subst hn
    have hp : p ≠ [] := by rintro rfl; simp at hlen
    simp only [List.replicate_zero] at hcode hu ⊢
    rw [head?_concat_of_ne_nil hp] at hcode
    rw [unstrincObjectId_of_code (by rwa [head?_concat_of_ne_nil hp]) hsize] at hu
    refine ⟨by simpa using hb, fun hs => ?_⟩
    simp only [List.length_append, List.length_singleton] at hs hu
    simp [hs] at hu
  · rintro ⟨hb, hs⟩
    have hid : id ≠ [] := by rintro rfl; simp at hlen
    obtain ⟨L, b, rfl⟩ : ∃ L b, id = L ++ [b] := ⟨_, _, (List.dropLast_append_getLast hid).symm⟩
    have hL : L ≠ [] := by rintro rfl; simp at hlen
    have hb : b ≠ 255 := by simpa using hb
    rw [head?_concat_of_ne_nil hL] at hcode
    rw [strinc_concat hb, Option.some_bind,
      unstrincObjectId_of_code (by rwa [head?_concat_of_ne_nil hL]) hsize]
    simp only [List.length_append, List.length_singleton] at hs ⊢
    simp [hs, List.modifyLast_append_one]

/-- From `keyAfter id` the id comes back exactly when the trailing `\x00` makes the key the
type's reduced length; otherwise the `\x00` is decremented to `\xff`. -/
theorem unstrincObjectId_keyAfter_iff {id : Key} (hcode : id.head? = some code)
    (hsize : c.reduceSize code = some size) :
    unstrincObjectId c (keyAfter id) = some id ↔ id.length + 1 = size := by
  have hne : id ≠ [] := by rintro rfl; cases hcode
  rw [unstrincObjectId_of_code (by rwa [keyAfter, head?_concat_of_ne_nil hne]) hsize]
  by_cases hs : id.length + 1 = size <;> simp [keyAfter, hs, List.modifyLast_append_one]

theorem unstrincObjectId_recovers_id (c : ObjectIdCodes) {id : Key} {code : Byte} {size : Nat}
    (hcode : id.head? = some code) (hsize : c.reduceSize code = some size) (hlen : 2 ≤ id.length) :
    ((strinc id).bind (unstrincObjectId c) = some id ↔ id.getLast? ≠ some 255 ∧ id.length ≠ size) ∧
    (unstrincObjectId c (keyAfter id) = some id ↔ id.length + 1 = size) :=
  ⟨unstrincObjectId_strinc_iff hcode hsize hlen, unstrincObjectId_keyAfter_iff hcode hsize⟩

theorem unstrincObjectId_recovers_two_byte_number :
    (strinc [1, 5]).bind (unstrincObjectId ⟨1, 7, 9⟩) = some [1, 5] :=
  (unstrincObjectId_recovers_id ⟨1, 7, 9⟩ (show ([1, 5] : Key).head? = some 1 from rfl)
    (show ObjectIdCodes.reduceSize ⟨1, 7, 9⟩ 1 = some 12 by decide) (by decide)).1.2
    ⟨by decide, by decide⟩

end DocLayer
