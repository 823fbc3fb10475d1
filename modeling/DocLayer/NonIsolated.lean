import DocLayer.SplitBound

/-! # The non-isolated wrappers `doNonIsolatedRO` and `doNonIsolatedRW`

`NonIsolatedPlan` runs its subplan in segments, each in a new transaction. A segment executes
the subplan on `innerCheckpoint` and reads its output `docs` until a timer fires; the wrapper
then calls `stopAndCheckpoint()` and runs the next segment on the checkpoint it returns. The
read-write wrapper also starts `commitChanges()` on every document it reads, commits the
segment's transaction, and only then sends the segment's documents on; when anything in the
segment fails it waits for `onError` and runs the segment again on `innerCheckpoint`.

* **`WrapperMove`** — what can happen next to a wrapper: a step of an operation of the
  subplan, `waitNext(docs)` returning, the segment timer firing, or a future of the wrapper's
  own completing or failing with a retryable error.
* **`NonIsolatedRO`, `NonIsolatedRW`** — the two actors' states and their moves.
* **`NonIsolatedRW.emitted_eq_committed`** — over every run, the documents the read-write
  wrapper has sent on are exactly those whose changes a committed transaction holds.
* **`nonIsolatedRO_pointLookup_loses_doc`** — a point lookup stopped while its `get` is
  outstanding is not looked up again in the next segment.
* **`nonIsolatedRW_read_retry_commits_twice`** — a read that fails before
  `stopAndCheckpoint` makes the retry execute the subplan on a checkpoint that was never
  stopped: its scan gets a fresh slot and reads the table from the start again.

The metadata version never changes between segments, so its check always passes; the outer
document-finished lock has a permit whenever the wrapper takes one; `onError` succeeds on a
retryable error and rethrows every other. -/

namespace DocLayer

/-- **What can happen next to a non-isolated wrapper.** -/
inductive WrapperMove
  /-- Operation `i` of the subplan's execution is woken by `ev`. -/
  | inner (i : Nat) (ev : Event)
  /-- `waitNext(docs)` returns the next message of the subplan's output. -/
  | next
  /-- The segment's `timeout` fires. -/
  | timeout
  /-- The future the wrapper waits on outside the subplan completes: the front document's
  `commitChanges()`, or the transaction's `commit()`. -/
  | complete
  /-- That future fails with a retryable error. -/
  | fail
  deriving DecidableEq, Repr

/-- **`innerCheckpoint->stop()`** on a segment's execution: cancel its actors. -/
def Exec.stop (env : Env) (x : Exec) : Exec := { x with cp := (x.cp.stop env).1 }

/-! ### `doNonIsolatedRO` -/

/-- **`doNonIsolatedRO`**: the current segment's execution of the subplan (its checkpoint is
`innerCheckpoint`), the index of the subplan's output `docs`, and the wrapper's output. -/
structure NonIsolatedRO where
  inner : Exec
  docs : Nat
  output : Stream
  deriving Repr

namespace NonIsolatedRO

variable (env : Env) (subPlan : Plan)

/-- **The first segment**: the subplan executed on `new PlanCheckpoint` (a lock of `permits`
permits). -/
def start (permits : Nat) : Option NonIsolatedRO :=
  (Exec.start env subPlan (PlanCheckpoint.new permits)).map fun s => ⟨s.1, s.2, .empty⟩

/-- **One move of `doNonIsolatedRO`**; none once its output has ended. A document is sent on
at once (taking an outer permit, releasing the inner one); an error, `end_of_stream`
included, stops the checkpoint and ends the output. The timer fires only when `docs` has
nothing ready and no plan actor is on the call stack; `stopAndCheckpoint()` then gives the
checkpoint of the next segment. -/
def move (r : NonIsolatedRO) (m : WrapperMove) : Option NonIsolatedRO :=
  if r.output.ended then none else
  match m with
  | .inner i ev => (r.inner.step env i ev).map fun y => { r with inner := y }
  | .next =>
    match r.inner.peek r.docs with
    | some (.doc d) =>
      some { r with inner := (r.inner.popInput r.docs).releasePermit, output := r.output.send (.doc d) }
    | some (.error e) => some { r with inner := r.inner.stop env, output := r.output.send (.error e) }
    | none => none
  | .timeout =>
    if r.inner.quiescent r.docs then
      (Exec.start env subPlan (r.inner.cp.stopAndCheckpoint env).next).map fun s =>
        { r with inner := s.1, docs := s.2 }
    else none
  | .complete | .fail => none

/-- **A sequence of moves**, replayed from `r`. -/
def run (r : NonIsolatedRO) : List WrapperMove → Option NonIsolatedRO
  | [] => some r
  | m :: ms => (r.move env subPlan m).bind fun r' => run r' ms

end NonIsolatedRO

/-! ### A point lookup across a checkpoint

`PrimaryKeyLookupPlan(k, k)` registers one `doSinglePKLookup`, which waits on its `get`.
Stopped there, it writes no split key, so the next segment's checkpoint bounds its scan to
`["\xff", "\xff")` and the lookup's bounds check fails at once. -/

section PointLookup

variable {env : Env} {k : Key}

/-- The execution right after `execute` of a point lookup of `k` on a fresh checkpoint. -/
def pointLookupExec (k : Key) (permits : Nat) : Exec :=
  ⟨⟨[ScanInfo.default], [], [⟨.singlePKLookup ⟨0, k, .get⟩, .empty⟩], 1, 0, false, ⟨permits, 0⟩⟩, [], 0⟩

theorem pointLookup_start (hlt : k < allKeysEnd) (permits : Nat) :
    Exec.start env (.primaryKeyLookup (some k) (some k)) (PlanCheckpoint.new permits) =
      some (pointLookupExec k permits, 0) := by
  simp [Exec.start, Plan.execute, PlanCheckpoint.addScan, PlanCheckpoint.new, PlanCheckpoint.getBounds,
    ScanInfo.default, List.nil_le, hlt, PlanCheckpoint.register, PlanCheckpoint.addOperation,
    pointLookupExec]

/-- **Uninterrupted, the lookup of a stored key delivers it and ends.** -/
theorem pointLookup_delivers (hk : k ∈ env.table) (permits : Nat) :
    ∃ y, Exec.run env 0 (pointLookupExec k permits) [.step 0 .complete, .step 0 .complete] = some y ∧
      y.completed 0 = true ∧ y.delivered 0 = [⟨.stored k, 0, k⟩] := by
  refine ⟨_, by simp [Exec.run, Exec.move, Exec.step, Exec.op?, pointLookupExec, doSinglePKLookup, hk,
    Exec.setActor, Exec.canTake, FlowControlLock.canTake, Exec.send, Exec.finish, Exec.takePermit]; rfl, ?_⟩
  simp [Exec.completed, Exec.delivered, Exec.op?, Stream.docs, Exec.setActor, Exec.send, Exec.takePermit,
    FlowControlLock.take]

/-- **Stopped in its `get`, the lookup's next segment is empty**: it ends its output with
`end_of_stream` before its first wait. -/
theorem pointLookup_resume (hlt : k < allKeysEnd) (permits : Nat) :
    Exec.start env (.primaryKeyLookup (some k) (some k))
      ((pointLookupExec k permits).cp.stopAndCheckpoint env).next =
      some (⟨⟨[⟨(allKeysEnd, allKeysEnd), allKeysEnd⟩], [], [⟨.finished, Stream.empty.send (.error .endOfStream)⟩],
        1, 0, false, ⟨permits, 0⟩⟩, [], 0⟩, 0) := by
  simp [Exec.start, Plan.execute, PlanCheckpoint.addScan, PlanCheckpoint.new, PlanCheckpoint.getBounds,
    ScanInfo.default, not_le.2 hlt, PlanCheckpoint.registerEnded, PlanCheckpoint.addOperation,
    PlanCheckpoint.stopAndCheckpoint, PlanCheckpoint.stop, PlanCheckpoint.rest, cancelFrom, cancelOp,
    PlanCheckpoint.sendCancelled, pointLookupExec]

theorem pointLookupExec_quiescent (permits : Nat) : (pointLookupExec k permits).quiescent 0 = true := rfl

end PointLookup

/-- **A point lookup stopped in its `get` is lost.** For every collection holding a key `k`,
`PrimaryKeyLookupPlan(k, k)` run uninterrupted delivers `k` and ends. Under
`doNonIsolatedRO` the first segment's timer may fire while the `get` is outstanding;
`doSinglePKLookup` writes no split key, so the next segment's lookup fails its bounds check,
and the wrapper ends its output with `end_of_stream` having sent nothing. -/
theorem nonIsolatedRO_pointLookup_loses_doc {env : Env} {k : Key} (hk : k ∈ env.table)
    (hlt : k < allKeysEnd) (permits : Nat) :
    (∃ x y, Exec.start env (.primaryKeyLookup (some k) (some k)) (PlanCheckpoint.new permits) = some (x, 0) ∧
      Exec.run env 0 x [.step 0 .complete, .step 0 .complete] = some y ∧
      y.completed 0 = true ∧ y.delivered 0 = [⟨.stored k, 0, k⟩]) ∧
    ∃ r0 r, NonIsolatedRO.start env (.primaryKeyLookup (some k) (some k)) permits = some r0 ∧
      NonIsolatedRO.run env (.primaryKeyLookup (some k) (some k)) r0 [.timeout, .next] = some r ∧
      r.output.sent = [.error .endOfStream] := by
  obtain ⟨y, hy⟩ := pointLookup_delivers hk permits
  refine ⟨⟨_, y, pointLookup_start hlt permits, hy⟩, ⟨pointLookupExec k permits, 0, .empty⟩, ?_⟩
  simp [NonIsolatedRO.start, pointLookup_start hlt, NonIsolatedRO.run, NonIsolatedRO.move,
    pointLookupExec_quiescent, pointLookup_resume hlt, Exec.peek, Exec.op?, Stream.peek, Exec.stop]

theorem nonIsolatedRO_loses_docKey :
    docKey ∈ oneDocEnv.table ∧ docKey < allKeysEnd ∧
    (∃ x y, Exec.start oneDocEnv (.primaryKeyLookup (some docKey) (some docKey)) (PlanCheckpoint.new 100) =
        some (x, 0) ∧
      Exec.run oneDocEnv 0 x [.step 0 .complete, .step 0 .complete] = some y ∧
      y.completed 0 = true ∧ y.delivered 0 = [⟨.stored docKey, 0, docKey⟩]) ∧
    ∃ r0 r, NonIsolatedRO.start oneDocEnv (.primaryKeyLookup (some docKey) (some docKey)) 100 = some r0 ∧
      NonIsolatedRO.run oneDocEnv (.primaryKeyLookup (some docKey) (some docKey)) r0 [.timeout, .next] = some r ∧
      r.output.sent = [.error .endOfStream] :=
  ⟨by decide, by decide, nonIsolatedRO_pointLookup_loses_doc (by decide) (by decide) 100⟩

/-! ### `doNonIsolatedRW` -/

/-- **Where `doNonIsolatedRW` is in a segment.** -/
inductive RWPhase
  /-- In the `choose` loop: reading `docs`, the front commit future and the timer. -/
  | reading
  /-- After `stopAndCheckpoint()` returned `next`: waiting for the remaining commit futures,
  then for the transaction's `commit()`. -/
  | committing (next : PlanCheckpoint)
  deriving Repr

/-- **`doNonIsolatedRW`**: the current attempt's execution of the subplan (its checkpoint is
`innerCheckpoint`) and the index of its output `docs`; the phase; `committingDocs`, whose
`commitChanges()` is outstanding, and `bufferedDocs`, whose changes are in the transaction;
`finished`; the wrapper's output. `committed` records what the database holds: the documents
whose changes a committed transaction wrote, in commit order. -/
structure NonIsolatedRW where
  inner : Exec
  docs : Nat
  phase : RWPhase
  committing : List ScanReturned
  buffered : List ScanReturned
  finished : Bool
  committed : List ScanReturned
  output : Stream
  deriving Repr

namespace NonIsolatedRW

variable (env : Env) (subPlan : Plan)

/-- **An attempt**: the subplan executed on `cp`, with empty `committingDocs` and
`bufferedDocs` and `finished` false, as the loop body declares them. -/
def attempt (r : NonIsolatedRW) (cp : PlanCheckpoint) : Option NonIsolatedRW :=
  (Exec.start env subPlan cp).map fun s =>
    { r with inner := s.1, docs := s.2, phase := .reading, committing := [], buffered := [],
             finished := false }

/-- **The first attempt**, on `new PlanCheckpoint`. -/
def start (permits : Nat) : Option NonIsolatedRW :=
  attempt env subPlan ⟨⟨PlanCheckpoint.new permits, [], 0⟩, 0, .reading, [], [], false, [], .empty⟩
    (PlanCheckpoint.new permits)

/-- **The outer `catch`**: stop `innerCheckpoint`, end the output with the error. -/
def abort (r : NonIsolatedRW) (e : ErrorCode) : NonIsolatedRW :=
  { r with inner := r.inner.stop env, output := r.output.send (.error e) }

/-- **`wait(dtr->tr->onError(e))`, then the next iteration**: a retryable error is retried by
executing the subplan again on `innerCheckpoint` as the failed attempt left it — stopped
when the failure came after `stopAndCheckpoint()`, not otherwise; any other error is
rethrown to the outer `catch`. -/
def onError (r : NonIsolatedRW) (e : ErrorCode) : Option NonIsolatedRW :=
  if e = .retryable then attempt env subPlan r r.inner.cp else some (abort env r e)

/-- **`next_checkpoint = innerCheckpoint->stopAndCheckpoint()`**: the attempt's checkpoint is
stopped, and the wrapper waits for its commits. -/
def checkpoint (r : NonIsolatedRW) (fin : Bool) : NonIsolatedRW :=
  let s := r.inner.cp.stopAndCheckpoint env
  { r with inner := { r.inner with cp := s.stopped }, phase := .committing s.next, finished := fin }

/-- **The commit's effect**: the buffered documents' changes are in the database, and the
buffered documents are sent on. -/
def sendBuffered (r : NonIsolatedRW) : NonIsolatedRW :=
  { r with committed := r.committed ++ r.buffered, buffered := [],
           output := { r.output with sent := r.output.sent ++ r.buffered.map .doc } }

/-- **The transaction committed**: `innerCheckpoint = next_checkpoint` and the buffered
documents are sent on; then `end_of_stream` if the subplan had finished, else the next
segment on `next`. -/
def commitSucceeded (r : NonIsolatedRW) (next : PlanCheckpoint) : Option NonIsolatedRW :=
  if r.finished then
    some (abort env { r.sendBuffered with inner := { r.inner with cp := next } } .endOfStream)
  else attempt env subPlan r.sendBuffered next

/-- **One move of `doNonIsolatedRW`**; none once its output has ended. -/
def move (r : NonIsolatedRW) (m : WrapperMove) : Option NonIsolatedRW :=
  if r.output.ended then none else
  match r.phase, m with
  | .reading, .inner i ev => (r.inner.step env i ev).map fun y => { r with inner := y }
  | .reading, .next =>
    match r.inner.peek r.docs with
    | some (.doc d) => some { r with inner := r.inner.popInput r.docs, committing := r.committing ++ [d] }
    | some (.error .endOfStream) => some (checkpoint env { r with inner := r.inner.popInput r.docs } true)
    | some (.error e) => onError env subPlan r e
    | none => none
  | .reading, .complete =>
    match r.committing with
    | d :: rest => some { r with inner := r.inner.releasePermit, committing := rest, buffered := r.buffered ++ [d] }
    | [] => none
  | .reading, .fail => if r.committing = [] then none else onError env subPlan r .retryable
  | .reading, .timeout => if r.inner.quiescent r.docs then some (checkpoint env r false) else none
  | .committing next, .complete =>
    match r.committing with
    | d :: rest => some { r with committing := rest, buffered := r.buffered ++ [d] }
    | [] => commitSucceeded env subPlan r next
  | .committing _, .fail => onError env subPlan r .retryable
  | _, _ => none

/-- **A sequence of moves**, replayed from `r`. -/
def run (r : NonIsolatedRW) : List WrapperMove → Option NonIsolatedRW
  | [] => some r
  | m :: ms => (r.move env subPlan m).bind fun r' => run r' ms

/-! #### Documents go on only after their commit -/

/-- What the wrapper has sent on is what is committed. -/
def Emitted (r : NonIsolatedRW) : Prop := r.output.docs = r.committed

theorem Emitted.attempt {r r' : NonIsolatedRW} {cp : PlanCheckpoint} (h : r.Emitted)
    (ha : NonIsolatedRW.attempt env subPlan r cp = some r') : r'.Emitted := by
  obtain ⟨s, -, rfl⟩ := Option.map_eq_some'.1 ha
  exact h

theorem Emitted.abort {r : NonIsolatedRW} {e : ErrorCode} (h : r.Emitted) :
    (NonIsolatedRW.abort env r e).Emitted := by
  simpa [Emitted, NonIsolatedRW.abort] using h

theorem Emitted.onError {r r' : NonIsolatedRW} {e : ErrorCode} (h : r.Emitted)
    (ho : NonIsolatedRW.onError env subPlan r e = some r') : r'.Emitted := by
  unfold NonIsolatedRW.onError at ho
  split at ho
  · exact h.attempt env subPlan ho
  · cases ho; exact h.abort env

theorem Emitted.sendBuffered {r : NonIsolatedRW} (h : r.Emitted) : r.sendBuffered.Emitted := by
  simp only [Emitted, NonIsolatedRW.sendBuffered, Stream.docs, List.filterMap_append,
    List.filterMap_map, Msg.toDoc?_comp_doc, List.filterMap_some] at h ⊢
  rw [h]

theorem Emitted.commitSucceeded {r r' : NonIsolatedRW} {next : PlanCheckpoint} (h : r.Emitted)
    (hc : NonIsolatedRW.commitSucceeded env subPlan r next = some r') : r'.Emitted := by
  unfold NonIsolatedRW.commitSucceeded at hc
  split at hc
  · cases hc; exact Emitted.abort env h.sendBuffered
  · exact h.sendBuffered.attempt env subPlan hc

/-- **A move keeps the sent documents equal to the committed ones.** -/
theorem Emitted.move {r r' : NonIsolatedRW} {m : WrapperMove} (h : r.Emitted)
    (hm : r.move env subPlan m = some r') : r'.Emitted := by
  unfold NonIsolatedRW.move at hm
  split at hm
  · cases hm
  split at hm
  · -- a step of the subplan
    obtain ⟨y, -, rfl⟩ := Option.map_eq_some'.1 hm
    exact h
  · -- `waitNext(docs)`
    split at hm
    · cases hm; exact h
    · cases hm; exact h
    · exact h.onError env subPlan hm
    · cases hm
  · -- the front commit future
    split at hm
    · cases hm; exact h
    · cases hm
  · split at hm
    · cases hm
    · exact h.onError env subPlan hm
  · -- the timer
    split at hm
    · cases hm; exact h
    · cases hm
  · -- a commit future or the transaction's commit, after `stopAndCheckpoint`
    split at hm
    · cases hm; exact h
    · exact h.commitSucceeded env subPlan hm
  · exact h.onError env subPlan hm
  · cases hm

theorem Emitted.run {r r' : NonIsolatedRW} {ms : List WrapperMove} (h : r.Emitted)
    (hr : run env subPlan r ms = some r') : r'.Emitted := by
  induction ms generalizing r with
  | nil => cases hr; exact h
  | cons m ms ih =>
    obtain ⟨r1, h1, hrest⟩ := Option.bind_eq_some.1 hr
    exact ih (h.move env subPlan h1) hrest

end NonIsolatedRW

/-! ### A retry that rescans -/

/-- An encoded primary key above `docKey`. -/
def laterKey : Key := [2, 108, 0]

/-- **A collection holding two documents**, keyed by `docKey` and `laterKey`. -/
def twoDocEnv : Env :=
  ⟨[docKey, laterKey], fun _ => [], id, id, fun _ _ => true, fun _ _ => [], [], by decide,
    fun _ => List.sorted_nil⟩

/-- **A read that fails before `stopAndCheckpoint` makes the retry rescan from the start.** A
table scan of `docKey` and `laterKey` under `doNonIsolatedRW`: the first segment commits and
sends `docKey`, stopping at the split key after it; the second segment's read fails, and the
retry executes the scan on that segment's checkpoint, which was never stopped, so `addScan`
gives the scan a fresh slot with the whole range. The run commits and sends `docKey` twice. -/
theorem nonIsolatedRW_read_retry_commits_twice :
    (∃ x y, Exec.start twoDocEnv .tableScan (PlanCheckpoint.new 100) = some (x, 0) ∧
      Exec.run twoDocEnv 0 x [.step 0 .input, .step 0 .complete, .step 0 .input, .step 0 .complete,
        .step 0 .input] = some y ∧
      y.completed 0 = true ∧ (y.delivered 0).map ScanReturned.doc = [.stored docKey, .stored laterKey]) ∧
    ∃ r0 r, NonIsolatedRW.start twoDocEnv .tableScan 100 = some r0 ∧
      NonIsolatedRW.run twoDocEnv .tableScan r0 [.inner 0 .input, .inner 0 .complete, .next, .complete,
        .timeout, .complete, .inner 0 .fail, .next, .inner 1 .input, .inner 1 .complete, .next, .complete,
        .inner 1 .input, .inner 1 .complete, .next, .complete, .inner 1 .input, .next, .complete] = some r ∧
      r.output.ended = true ∧
      r.committed.map ScanReturned.doc = [.stored docKey, .stored docKey, .stored laterKey] ∧
      r.output.docs.map ScanReturned.doc = [.stored docKey, .stored docKey, .stored laterKey] :=
  ⟨⟨_, _, rfl, rfl, by decide, by decide⟩, ⟨_, _, rfl, rfl, by decide, by decide, by decide⟩⟩


end DocLayer
