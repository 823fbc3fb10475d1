import DocLayer.Run

/-! # What the cancellation handlers leave in the split keys

The split key of scan `s` after `stop()` is whatever the last handler to write it wrote. The
handlers of the head-of-queue actors write their held documents last to first, so the
earliest held document of each scan is the one that counts — the mechanism the
`stopAndCheckpoint` overview comment describes. Every write goes through `splitBound`'s
`ASSERT`, which fails for a document no scan of the checkpoint produced.

* **`splitBoundsReverse_scans_length`** — the handler adds no slot.
* **`splitBoundsReverse_fails_iff`** — the handler's `ASSERT` fails exactly when some held
  document names no slot, such as a document with scan id `-1`.
* **`pointLookup_stop_leaves_split_at_end`** — `doSinglePKLookup` has no handler: stopped
  while its `get` is outstanding, it leaves its split at `"\xff"` though the document it is
  about to send is below that.
* **`upsertedDoc_stop_fails_splitBound_assert`** — an upserted document (scan id `-1`) held by
  `doProject` when `stopAndCheckpoint` runs trips the `ASSERT`. -/

namespace DocLayer

/-- Scan `whichScan` names a slot of the checkpoint. -/
def PlanCheckpoint.HasScan (cp : PlanCheckpoint) (whichScan : Int) : Prop :=
  0 ≤ whichScan ∧ whichScan < cp.scans.length

/-- The split key in slot `s`. -/
def PlanCheckpoint.splitOf (cp : PlanCheckpoint) (s : Nat) : Key :=
  (cp.scans.getD s ScanInfo.default).split

theorem PlanCheckpoint.splitBound_eq_some {cp : PlanCheckpoint} {w : Int} {k : Key}
    (h : cp.HasScan w) :
    cp.splitBound w k = some { cp with scans := cp.scans.modify (fun si => { si with split := k }) w.toNat } := by
  simp [PlanCheckpoint.splitBound, h.1, h.2]

theorem PlanCheckpoint.splitBound_eq_none {cp : PlanCheckpoint} {w : Int} {k : Key} :
    cp.splitBound w k = none ↔ ¬ cp.HasScan w := by
  unfold PlanCheckpoint.splitBound PlanCheckpoint.HasScan
  split <;> simp_all

@[simp] theorem PlanCheckpoint.splitBound_scans_length {cp cp' : PlanCheckpoint} {w : Int} {k : Key}
    (h : cp.splitBound w k = some cp') : cp'.scans.length = cp.scans.length := by
  unfold PlanCheckpoint.splitBound at h
  split at h
  · cases h; simp
  · cases h

theorem PlanCheckpoint.splitOf_splitBound {cp cp' : PlanCheckpoint} {w : Int} {k : Key}
    (h : cp.splitBound w k = some cp') (s : Nat) :
    cp'.splitOf s = if w = s then k else cp.splitOf s := by
  unfold PlanCheckpoint.splitBound at h
  split at h
  · cases h
    rename_i hw
    simp only [PlanCheckpoint.splitOf, List.getD_eq_getElem?_getD, List.getElem?_modify]
    by_cases hs : w = s
    · subst hs
      rw [List.getElem?_eq_getElem (by omega)]
      simp
    · have : w.toNat ≠ s := by omega
      simp [this, hs]
  · cases h

theorem splitBoundsReverse_cons (cp : PlanCheckpoint) (d : ScanReturned) (rest : List ScanReturned) :
    splitBoundsReverse cp (d :: rest) =
      if (splitBoundsReverse cp rest).2 then splitBoundsReverse cp rest
      else splitBoundOne (splitBoundsReverse cp rest).1 d.scanId d.scanKey := rfl

@[simp] theorem splitBoundOne_scans_length (cp : PlanCheckpoint) (w : Int) (k : Key) :
    (splitBoundOne cp w k).1.scans.length = cp.scans.length := by
  unfold splitBoundOne
  split <;> rename_i h
  · exact PlanCheckpoint.splitBound_scans_length h
  · rfl

theorem splitBoundOne_fails_iff (cp : PlanCheckpoint) (w : Int) (k : Key) :
    (splitBoundOne cp w k).2 = true ↔ ¬ cp.HasScan w := by
  rw [← PlanCheckpoint.splitBound_eq_none (k := k)]
  unfold splitBoundOne
  split <;> rename_i h <;> simp [h]

theorem splitOf_splitBoundOne {cp : PlanCheckpoint} {w : Int} (k : Key) (h : cp.HasScan w) (s : Nat) :
    (splitBoundOne cp w k).1.splitOf s = if w = s then k else cp.splitOf s := by
  rw [splitBoundOne, PlanCheckpoint.splitBound_eq_some h]
  exact PlanCheckpoint.splitOf_splitBound (PlanCheckpoint.splitBound_eq_some h) s

@[simp] theorem splitBoundsReverse_scans_length (cp : PlanCheckpoint) (docs : List ScanReturned) :
    (splitBoundsReverse cp docs).1.scans.length = cp.scans.length := by
  induction docs with
  | nil => rfl
  | cons d rest ih => rw [splitBoundsReverse_cons]; split <;> simp [ih]

/-- **The handler's `ASSERT` fails exactly when a held document names no slot.** -/
theorem splitBoundsReverse_fails_iff (cp : PlanCheckpoint) (docs : List ScanReturned) :
    (splitBoundsReverse cp docs).2 = true ↔ ∃ d ∈ docs, ¬ cp.HasScan d.scanId := by
  induction docs with
  | nil => simp [splitBoundsReverse]
  | cons d rest ih =>
    have hlen : ∀ w, (splitBoundsReverse cp rest).1.HasScan w ↔ cp.HasScan w := by
      simp [PlanCheckpoint.HasScan]
    rw [splitBoundsReverse_cons]
    by_cases hr : (splitBoundsReverse cp rest).2 = true
    · obtain ⟨d', hd', hn⟩ := ih.1 hr
      simp only [hr, if_true, true_iff]
      exact ⟨d', List.mem_cons_of_mem d hd', hn⟩
    · rw [if_neg hr, splitBoundOne_fails_iff, hlen, List.exists_mem_cons_iff, iff_self_or]
      exact fun h => absurd (ih.2 h) hr

/-! ## Two stops the handlers get wrong -/

/-- An encoded primary key. -/
def docKey : Key := [2, 107, 0]

/-- **A collection holding one document**, keyed by `docKey`; the tuple decoder is the
identity on its one-item keys. -/
def oneDocEnv : Env :=
  ⟨[docKey], fun _ => [], id, id, fun _ _ => true, fun _ _ => [], [], by decide,
    fun _ => List.sorted_nil⟩

/-- **An empty collection.** -/
def emptyEnv : Env :=
  ⟨[], fun _ => [], id, id, fun _ _ => true, fun _ _ => [], [], List.sorted_nil,
    fun _ => List.sorted_nil⟩

/-- **A stop during a point lookup loses the document.** `PrimaryKeyLookupPlan(k, k)` on a
collection holding `k` is stopped while its `get` is outstanding — a quiescent state with
nothing delivered, from which the next two completions deliver `k` at scan key `k`. Having no
handler, `doSinglePKLookup` leaves split `"ÿ"`, above that scan key. -/
theorem pointLookup_stop_leaves_split_at_end :
    ∃ x root, Reachable oneDocEnv (.primaryKeyLookup (some docKey) (some docKey))
        (PlanCheckpoint.new 100) x root ∧
      x.quiescent root = true ∧ x.outputEnded root = false ∧ x.delivered root = [] ∧
      (∃ y, Exec.run oneDocEnv root x [.step 0 .complete, .step 0 .complete] = some y ∧
        y.delivered root = [⟨.stored docKey, 0, docKey⟩]) ∧
      (x.cp.stopAndCheckpoint oneDocEnv).stopped.splitOf 0 = allKeysEnd ∧ docKey < allKeysEnd :=
  ⟨_, _, Reachable.start rfl, by decide, by decide, by decide, ⟨_, rfl, by decide⟩, by decide,
    by decide⟩

/-- **An upserted document trips `splitBound`'s `ASSERT`.** `Projection(Update(PK lookup of a
missing key, limit 1, upsert))`: the update upserts and sends a document with scan id `-1`;
`doProject` holds it, its input ended, when `stopAndCheckpoint` runs, and its handler calls
`splitBound(-1)`. -/
theorem upsertedDoc_stop_fails_splitBound_assert :
    ∃ x root, Reachable emptyEnv (.projection (.update (.primaryKeyLookup (some docKey) (some docKey)) 1 true))
        (PlanCheckpoint.new 100) x root ∧
      x.quiescent root = true ∧ x.outputEnded root = false ∧
      (x.cp.stopAndCheckpoint emptyEnv).assertFailed = true :=
  ⟨_, _, Reachable.of_run rfl (show Exec.run emptyEnv _ _ [.step 0 .complete, .step 1 .input,
      .step 1 .complete, .step 1 .complete, .step 2 .input, .step 2 .input] = some _ from rfl),
    by decide, by decide, by decide⟩

end DocLayer
