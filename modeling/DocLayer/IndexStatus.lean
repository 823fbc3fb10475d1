import DocLayer.Key

/-! # Finishing an index build — `updateIndexStatus`

An index build ends with an `UpdateIndexStatusPlan` setting the index's status. A build that
may have been superseded passes its build id: the update then goes through only while the
index's metadata document still holds that id, and going through clears it, together with the
build's progress marker. Requests from several clients are serialised by their transactions,
so a run is a sequence of requests (`statusRun`).

* **`IndexMeta`** — the fields the actor reads and writes, and the collection's metadata
  version, which it bumps.
* **`updateIndexStatus`** — one request: the new metadata, or `none` for
  `index_wrong_build_id`, which writes nothing.
* **`updateIndexStatus_guarded_once`** — over any sequence of requests: the metadata version
  counts the requests that went through, the build id is cleared once one has, and a request
  guarded by a build id goes through only as the first of the run to do so, with the id the
  document held at the start. So at most one guarded request ever goes through. -/

namespace DocLayer

/-- **What `updateIndexStatus` reads and writes**: of the index's metadata document, the
`"status"`, `"currently processing document"` and `"build id"` fields (a build id is a `UID`,
only compared for equality), and the collection's metadata version. -/
structure IndexMeta where
  status : String
  currentlyProcessing : Option Key
  buildId : Option Nat
  metadataVersion : Nat
  deriving DecidableEq, Repr

/-- **`updateIndexStatus`'s `okay`**: without a `buildId` the update always goes through; with
one, only when the document holds a build id and it equals `buildId`. -/
def IndexMeta.okay (m : IndexMeta) (buildId : Option Nat) : Bool :=
  match buildId with
  | some b => m.buildId == some b
  | none => true

/-- **`updateIndexStatus`**: when `okay`, set the status, clear the progress marker and the
build id, and bump the metadata version (the actor then sends the index document with scan id
`-1` and ends its output); otherwise `none`, the `index_wrong_build_id` error, with nothing
written. -/
def updateIndexStatus (m : IndexMeta) (newStatus : String) (buildId : Option Nat) :
    Option IndexMeta :=
  if m.okay buildId then
    some { m with status := newStatus, currentlyProcessing := none, buildId := none,
                  metadataVersion := m.metadataVersion + 1 }
  else none

/-- **An `UpdateIndexStatusPlan`**: the status it sets and the build id it is guarded by. -/
structure StatusRequest where
  newStatus : String
  buildId : Option Nat
  deriving DecidableEq, Repr

/-- **Status requests one after another**: the metadata they leave and, per request, whether
it went through. -/
def statusRun (m : IndexMeta) : List StatusRequest → IndexMeta × List Bool
  | [] => (m, [])
  | r :: rs =>
    match updateIndexStatus m r.newStatus r.buildId with
    | some m' => ((statusRun m' rs).1, true :: (statusRun m' rs).2)
    | none => ((statusRun m rs).1, false :: (statusRun m rs).2)

variable {m m' : IndexMeta} {r : StatusRequest} {rs : List StatusRequest}

theorem IndexMeta.buildId_of_okay {b : Nat} (h : m.okay (some b) = true) : m.buildId = some b := by
  simpa [IndexMeta.okay] using h

/-- What a request that goes through leaves: no build id, and the next metadata version. -/
theorem updateIndexStatus_eq_some {s : String} {b : Option Nat}
    (h : updateIndexStatus m s b = some m') :
    m.okay b = true ∧ m'.buildId = none ∧ m'.metadataVersion = m.metadataVersion + 1 := by
  unfold updateIndexStatus at h
  split at h
  · cases h
    exact ⟨‹_›, rfl, rfl⟩
  · cases h

theorem statusRun_cons_of_some (h : updateIndexStatus m r.newStatus r.buildId = some m') :
    statusRun m (r :: rs) = ((statusRun m' rs).1, true :: (statusRun m' rs).2) := by
  simp [statusRun, h]

theorem statusRun_cons_of_none (h : updateIndexStatus m r.newStatus r.buildId = none) :
    statusRun m (r :: rs) = ((statusRun m rs).1, false :: (statusRun m rs).2) := by
  simp [statusRun, h]

theorem statusRun_metadataVersion (m : IndexMeta) (rs : List StatusRequest) :
    (statusRun m rs).1.metadataVersion = m.metadataVersion + (statusRun m rs).2.count true := by
  induction rs generalizing m with
  | nil => rfl
  | cons r rs ih =>
    cases h : updateIndexStatus m r.newStatus r.buildId with
    | none => simp [statusRun_cons_of_none h, ih]
    | some m' =>
      rw [statusRun_cons_of_some h, List.count_cons_self, ih, (updateIndexStatus_eq_some h).2.2]
      omega

theorem statusRun_buildId (m : IndexMeta) (rs : List StatusRequest) :
    (statusRun m rs).1.buildId = if true ∈ (statusRun m rs).2 then none else m.buildId := by
  induction rs generalizing m with
  | nil => rfl
  | cons r rs ih =>
    cases h : updateIndexStatus m r.newStatus r.buildId with
    | none => simp [statusRun_cons_of_none h, ih]
    | some m' => simp [statusRun_cons_of_some h, ih, (updateIndexStatus_eq_some h).2.1]

/-- A guarded request that goes through is the first of the run to go through, and its id is
the one the document held at the start. -/
theorem statusRun_guarded_first (m : IndexMeta) {j b : Nat}
    (hj : rs[j]?.map StatusRequest.buildId = some (some b)) (hok : (statusRun m rs).2[j]? = some true) :
    m.buildId = some b ∧ true ∉ (statusRun m rs).2.take j := by
  induction rs generalizing m j with
  | nil => simp at hj
  | cons r rs ih =>
    cases h : updateIndexStatus m r.newStatus r.buildId with
    | none =>
      rw [statusRun_cons_of_none h] at hok ⊢
      cases j with
      | zero => simp at hok
      | succ k =>
        obtain ⟨hb, hk⟩ := ih m (by simpa using hj) (by simpa using hok)
        exact ⟨hb, by simpa using hk⟩
    | some m' =>
      rw [statusRun_cons_of_some h] at hok ⊢
      cases j with
      | zero =>
        have hr : r.buildId = some b := by simpa using hj
        exact ⟨IndexMeta.buildId_of_okay (hr ▸ (updateIndexStatus_eq_some h).1), by simp⟩
      | succ k =>
        have := (ih m' (by simpa using hj) (by simpa using hok)).1
        simp [(updateIndexStatus_eq_some h).2.1] at this

theorem updateIndexStatus_guarded_once (m : IndexMeta) (rs : List StatusRequest) :
    (statusRun m rs).1.metadataVersion = m.metadataVersion + (statusRun m rs).2.count true ∧
    (statusRun m rs).1.buildId = (if true ∈ (statusRun m rs).2 then none else m.buildId) ∧
    ∀ j b, rs[j]?.map StatusRequest.buildId = some (some b) → (statusRun m rs).2[j]? = some true →
      m.buildId = some b ∧ true ∉ (statusRun m rs).2.take j :=
  ⟨statusRun_metadataVersion m rs, statusRun_buildId m rs,
    fun _ _ hj hok => statusRun_guarded_first m hj hok⟩

/-- Two requests of one build: the second finds the build id gone. -/
theorem updateIndexStatus_second_guarded_fails :
    (statusRun ⟨"building", none, some 7, 0⟩ [⟨"ready", some 7⟩, ⟨"ready", some 7⟩]).2[1]? ≠ some true :=
  fun h => ((updateIndexStatus_guarded_once _ _).2.2 1 7 (by rfl) h).2 (by decide)

end DocLayer
