import DocLayer.NonIsolated

/-! # The retry wrapper `doRetry`

`RetryPlan` runs its subplan in one transaction and runs it again, from the start, on a
retryable error. An attempt executes the subplan on a `new PlanCheckpoint`, starts
`commitChanges()` on every document `docs` delivers and queues the document with that future
in `committing`; when the front's future completes the document joins `ret`. After the
subplan's `end_of_stream` the wrapper waits for the rest of the queue, front first, commits
the transaction, and only then sends `ret` on, one document per permit of the outer lock, and
ends its output. An error in an attempt — from `docs`, from the front's `commitChanges()`, or
from the commit — reaches the attempt's `catch`: `onError` retries a retryable one with a new
transaction; `commit_unknown_result` and every other error end the output.

* **`RetryMove`** — what can happen next to the wrapper. The queued `commitChanges()` futures
  complete in any order (`settle`); the wrapper only ever waits on the front one (`front`).
* **`Retry`** — the wrapper's state, with three records that are not in the source: what
  `docs` delivered in the attempt, the order the attempt's `commitChanges()` completed in, and
  the documents of the transaction that committed.
* **`Retry.move`** — one move of `doRetry`; `Retry.thrown` — the error a move throws into
  the attempt.
* **`RetryRun`** — where the wrapper can be; `Inv.step` is its step lemma and `Inv.run` its
  run lemma.
* **`retry_emits_committed_attempt`** — over every run: the output is a prefix of the
  committed transaction's documents, in the order `docs` delivered them, then
  `end_of_stream`, and a run of permits sends all of them (`run_permits`); or one error that
  no retry follows.
* **`retry_order_is_not_completion_order`** — an attempt whose second document's
  `commitChanges()` completes first still sends its documents in `docs` order.

`onError` returns at once on a retryable error and rethrows every other; the outer lock has a
permit whenever the wrapper asks for one. -/

namespace DocLayer

/-- **How a queued `commitChanges()` future stands.** -/
inductive FutureState
  | pending
  | ready
  | failed (e : ErrorCode)
  deriving DecidableEq, Repr

/-- **Where `doRetry` is in an attempt.** -/
inductive RetryPhase
  /-- The `choose` loop: `waitNext(docs)`, and the front of `committing`. -/
  | reading
  /-- After the inner `catch`: `wait(committing.front().second)` until `committing` is empty. -/
  | draining
  /-- `wait(tr->tr->commit())`. -/
  | committing
  /-- The `for` loop over `ret`, with the documents `rest` still to send. -/
  | sending (rest : List ScanReturned)
  deriving DecidableEq, Repr

/-- **What can happen next to `doRetry`.** -/
inductive RetryMove
  /-- Operation `i` of the attempt's execution of the subplan is woken by `ev`. -/
  | inner (i : Nat) (ev : Event)
  /-- `waitNext(docs)` returns the next message of the subplan's output. -/
  | next
  /-- The `commitChanges()` of the `k`-th queued document completes (`none`) or fails. -/
  | settle (k : Nat) (err : Option ErrorCode)
  /-- The wait on the front's `commitChanges()`, which has settled, returns. -/
  | front
  /-- `tr->tr->commit()` completes (`none`) or fails. -/
  | commit (err : Option ErrorCode)
  /-- `outerLock->take(1)` returns. -/
  | permit
  deriving DecidableEq, Repr

/-- **`doRetry`**: the attempt's execution of the subplan (its checkpoint is
`innerCheckpoint`) and the index of its output `docs`; the phase; `committing`, each document
with its `commitChanges()` future; `ret`; and the output. `read` is what `docs` has delivered
in the attempt, `settled` the documents whose `commitChanges()` completed, in completion
order, and `committed` the documents of the transaction that committed. -/
structure Retry where
  inner : Exec
  docs : Nat
  phase : RetryPhase
  committing : List (ScanReturned × FutureState)
  ret : List ScanReturned
  read : List Msg
  settled : List ScanReturned
  committed : Option (List ScanReturned)
  output : Stream
  deriving Repr

namespace Retry

variable (env : Env) (subPlan : Plan) (permits : Nat)

/-- **An attempt**: `subPlan->execute` on a `new PlanCheckpoint` (a lock of `permits` permits),
with `committing` and `ret` empty. -/
def attempt (r : Retry) : Option Retry :=
  (Exec.start env subPlan (PlanCheckpoint.new permits)).map fun s =>
    { r with inner := s.1, docs := s.2, phase := .reading, committing := [], ret := [], read := [],
             settled := [] }

/-- **The first attempt.** -/
def start : Option Retry :=
  attempt env subPlan permits
    ⟨⟨PlanCheckpoint.new permits, [], 0⟩, 0, .reading, [], [], [], [], none, .empty⟩

/-- **The outermost `catch`**: `output.sendError(e)`. -/
def abort (r : Retry) (e : ErrorCode) : Retry := { r with output := r.output.send (.error e) }

/-- **The attempt's `catch`**: `commit_unknown_result` and `end_of_stream` are rethrown; any
other error waits for `onError(e)`, which returns on a retryable error — the next attempt
then runs with a new transaction — and rethrows every other. -/
def catchError (r : Retry) (e : ErrorCode) : Option Retry :=
  if e = .commitUnknownResult ∨ e = .endOfStream then some (r.abort e)
  else if e = .retryable then attempt env subPlan permits r
  else some (r.abort e)

/-- **After the inner `catch`, or a front taken while draining**: wait for the front while
`committing` is not empty, then for the commit. -/
def drain (r : Retry) : Retry :=
  { r with phase := if r.committing = [] then .committing else .draining }

@[simp] theorem drain_phase (r : Retry) :
    r.drain.phase = if r.committing = [] then .committing else .draining := rfl
@[simp] theorem drain_committing (r : Retry) : r.drain.committing = r.committing := rfl
@[simp] theorem drain_ret (r : Retry) : r.drain.ret = r.ret := rfl
@[simp] theorem drain_read (r : Retry) : r.drain.read = r.read := rfl
@[simp] theorem drain_committed (r : Retry) : r.drain.committed = r.committed := rfl
@[simp] theorem drain_output (r : Retry) : r.drain.output = r.output := rfl

/-- **The front's `commitChanges()` completed**: the document joins `ret` and its inner permit
is given back. -/
def popFront (r : Retry) (d : ScanReturned) (rest : List (ScanReturned × FutureState)) : Retry :=
  { r with inner := r.inner.releasePermit, committing := rest, ret := r.ret ++ [d] }

/-- **The `for` loop over `ret`** with `rest` still to send; with none left, `throw
end_of_stream()` reaches the outermost `catch`. -/
def sendRest (r : Retry) : List ScanReturned → Retry
  | [] => r.abort .endOfStream
  | d :: rest => { r with phase := .sending (d :: rest) }

/-- **One move of `doRetry`**; none once its output has ended. -/
def move (r : Retry) (m : RetryMove) : Option Retry :=
  if r.output.ended then none else
  match r.phase, m with
  | .reading, .inner i ev => (r.inner.step env i ev).map fun y => { r with inner := y }
  | .reading, .next =>
    match r.inner.peek r.docs with
    | some (.doc d) =>
      some { r with inner := r.inner.popInput r.docs, committing := r.committing ++ [(d, .pending)],
                    read := r.read ++ [.doc d] }
    | some (.error e) =>
      let r := { r with inner := (r.inner.popInput r.docs).stop env, read := r.read ++ [.error e] }
      if e = .endOfStream then some (drain r) else catchError env subPlan permits r e
    | none => none
  | _, .settle k err =>
    match r.committing[k]? with
    | some (d, .pending) =>
      some { r with committing := r.committing.set k (d, (err.map .failed).getD .ready),
                    settled := r.settled ++ if err = none then [d] else [] }
    | _ => none
  | .reading, .front =>
    match r.committing with
    | (d, .ready) :: rest => some (r.popFront d rest)
    | (_, .failed e) :: _ =>
      let r := { r with inner := r.inner.stop env }
      if e = .endOfStream then some (drain r) else catchError env subPlan permits r e
    | _ => none
  | .draining, .front =>
    match r.committing with
    | (d, .ready) :: rest => some (drain (r.popFront d rest))
    | (_, .failed e) :: _ => catchError env subPlan permits r e
    | _ => none
  | .committing, .commit none => some (sendRest { r with committed := some r.ret } r.ret)
  | .committing, .commit (some e) => catchError env subPlan permits r e
  | .sending (d :: rest), .permit => some (sendRest { r with output := r.output.send (.doc d) } rest)
  | _, _ => none

/-- **A sequence of moves**, replayed from `r`. -/
def run (r : Retry) : List RetryMove → Option Retry
  | [] => some r
  | m :: ms => (r.move env subPlan permits m).bind fun r' => run r' ms

/-- **The error move `m` throws into the attempt**, `end_of_stream` aside: `docs` delivering
it, the front's `commitChanges()` having failed with it, or the commit failing with it. -/
def thrown (r : Retry) : RetryMove → Option ErrorCode
  | .next =>
    match r.inner.peek r.docs with
    | some (.error e) => if e = .endOfStream then none else some e
    | _ => none
  | .front =>
    match r.committing with
    | (_, .failed e) :: _ => if e = .endOfStream then none else some e
    | _ => none
  | .commit (some e) => if e = .endOfStream then none else some e
  | _ => none

/-! ## One move -/

/-- **What one move of `doRetry` does**: a step of the subplan; a document read and queued;
`docs`' `end_of_stream`, which starts the drain; a queued future settling; the front taken
while reading or draining; the front failing with `end_of_stream`, which the inner `catch`
takes for the end of `docs`; the commit; a document sent; or an error reaching the attempt's
`catch`, from `r` or from `r` with its checkpoint stopped. -/
inductive RetryStep (r : Retry) : Retry → Prop
  | inner {y : Exec} : r.phase = .reading → RetryStep r { r with inner := y }
  | read {y : Exec} {d : ScanReturned} : r.phase = .reading → r.inner.peek r.docs = some (.doc d) →
      RetryStep r { r with inner := y, committing := r.committing ++ [(d, .pending)], read := r.read ++ [.doc d] }
  | ended {y : Exec} : r.phase = .reading → r.inner.peek r.docs = some (.error .endOfStream) →
      RetryStep r (drain { r with inner := y, read := r.read ++ [.error .endOfStream] })
  | settle {k : Nat} {d : ScanReturned} {s : FutureState} {settled : List ScanReturned} :
      r.committing[k]? = some (d, .pending) →
      RetryStep r { r with committing := r.committing.set k (d, s), settled := settled }
  | popReading {d : ScanReturned} {rest : List (ScanReturned × FutureState)} : r.phase = .reading →
      r.committing = (d, .ready) :: rest → RetryStep r (r.popFront d rest)
  | popDraining {d : ScanReturned} {rest : List (ScanReturned × FutureState)} : r.phase = .draining →
      r.committing = (d, .ready) :: rest → RetryStep r (drain (r.popFront d rest))
  | stall {y : Exec} {d : ScanReturned} {rest : List (ScanReturned × FutureState)} : r.phase = .reading →
      r.committing = (d, .failed .endOfStream) :: rest → RetryStep r (drain { r with inner := y })
  | commit : r.phase = .committing → RetryStep r (sendRest { r with committed := some r.ret } r.ret)
  | send {d : ScanReturned} {rest : List ScanReturned} : r.phase = .sending (d :: rest) →
      RetryStep r (sendRest { r with output := r.output.send (.doc d) } rest)
  | raise {r1 r' : Retry} {e : ErrorCode} : catchError env subPlan permits r1 e = some r' →
      (∀ rest, r.phase ≠ .sending rest) → r1.output = r.output → r1.committed = r.committed →
      RetryStep r r'

theorem move_retryStep {r r' : Retry} {m : RetryMove} (h : r.move env subPlan permits m = some r') :
    r.output.ended = false ∧ RetryStep env subPlan permits r r' := by
  unfold move at h
  by_cases hend : r.output.ended
  · simp [hend] at h
  rw [if_neg hend] at h
  refine ⟨by simpa using hend, ?_⟩
  split at h
  · -- a step of the subplan
    obtain ⟨y, -, rfl⟩ := Option.map_eq_some'.1 h
    exact .inner ‹_›
  · -- `waitNext(docs)`
    rename_i hph
    split at h
    · cases h
      exact .read hph ‹_›
    · rename_i e hp
      dsimp only at h
      split at h
      · cases h
        subst e
        exact .ended hph hp
      · exact .raise h (by simp [hph]) rfl rfl
    · cases h
  · -- a queued future settles
    split at h
    · cases h
      exact .settle ‹_›
    · cases h
  · -- the front, while reading
    rename_i hph
    split at h
    · cases h
      exact .popReading hph ‹_›
    · rename_i e _ hq
      dsimp only at h
      split at h
      · cases h
        subst e
        exact .stall hph hq
      · exact .raise h (by simp [hph]) rfl rfl
    · cases h
  · -- the front, while draining
    rename_i hph
    split at h
    · cases h
      exact .popDraining hph ‹_›
    · exact .raise h (by simp [hph]) rfl rfl
    · cases h
  · cases h
    exact .commit ‹_›
  · exact .raise h (by simp [‹r.phase = _›]) rfl rfl
  · cases h
    exact .send ‹_›
  · cases h

/-! ## Where the wrapper can be -/

/-- **Where `doRetry` can be**, by its phase, what `docs` delivered in the attempt (`read`),
`ret`, the queue, the transaction committed and the output sent. In an attempt, with nothing
committed and nothing sent: reading, `docs` having delivered `ret` then the queued documents;
draining, the same then `end_of_stream`; stalled, the front's future having failed with
`end_of_stream`; waiting for the commit, `docs` having delivered `ret` then `end_of_stream`.
Or sending, the transaction committed with `ret` and a prefix of it sent; ended, all of it
sent, then `end_of_stream`; or failed, the output ended by an error that is not retried. -/
inductive RetryRun (phase : RetryPhase) (read : List Msg) (ret : List ScanReturned)
    (q : List (ScanReturned × FutureState)) (committed : Option (List ScanReturned)) (sent : List Msg) :
    Prop
  | reading : phase = .reading → read = (ret ++ q.map Prod.fst).map .doc → committed = none → sent = [] →
      RetryRun phase read ret q committed sent
  | draining : phase = .draining → q ≠ [] →
      read = (ret ++ q.map Prod.fst).map .doc ++ [.error .endOfStream] → committed = none → sent = [] →
      RetryRun phase read ret q committed sent
  | stalled {d : ScanReturned} {rest : List (ScanReturned × FutureState)} : phase = .draining →
      q = (d, .failed .endOfStream) :: rest → read = (ret ++ q.map Prod.fst).map .doc → committed = none →
      sent = [] → RetryRun phase read ret q committed sent
  | committing : phase = .committing → q = [] → read = ret.map .doc ++ [.error .endOfStream] →
      committed = none → sent = [] → RetryRun phase read ret q committed sent
  | sending {done rest : List ScanReturned} : phase = .sending rest → rest ≠ [] → q = [] → ret = done ++ rest →
      committed = some ret → read = ret.map .doc ++ [.error .endOfStream] → sent = done.map .doc →
      RetryRun phase read ret q committed sent
  | ended : committed = some ret → read = ret.map .doc ++ [.error .endOfStream] →
      sent = ret.map .doc ++ [.error .endOfStream] → RetryRun phase read ret q committed sent
  | failed {e : ErrorCode} : e ≠ .retryable → committed = none → sent = [.error e] →
      RetryRun phase read ret q committed sent

/-- **`doRetry` is where `RetryRun` says.** -/
def Inv (r : Retry) : Prop := RetryRun r.phase r.read r.ret r.committing r.committed r.output.sent

section Views

variable {r : Retry}

/-- **A live wrapper outside its sending loop is in an attempt**: nothing committed, nothing
sent. -/
theorem Inv.in_attempt (h : r.Inv) (hend : r.output.ended = false) (hph : ∀ rest, r.phase ≠ .sending rest) :
    r.committed = none ∧ r.output.sent = [] := by
  cases h with
  | sending h1 => exact absurd h1 (hph _)
  | ended _ _ hs => simp [Stream.ended, hs] at hend
  | failed _ _ hs => simp [Stream.ended, hs] at hend
  | _ => exact ⟨‹_›, ‹_›⟩

theorem Inv.of_reading (h : r.Inv) (hend : r.output.ended = false) (hph : r.phase = .reading) :
    r.read = (r.ret ++ r.committing.map Prod.fst).map .doc := by
  cases h with
  | reading _ hr => exact hr
  | ended _ _ hs => simp [Stream.ended, hs] at hend
  | failed _ _ hs => simp [Stream.ended, hs] at hend
  | _ => simp_all

theorem Inv.of_draining (h : r.Inv) (hend : r.output.ended = false) (hph : r.phase = .draining) :
    (r.committing ≠ [] ∧ r.read = (r.ret ++ r.committing.map Prod.fst).map .doc ++ [.error .endOfStream]) ∨
      (∃ d rest, r.committing = (d, .failed .endOfStream) :: rest ∧
        r.read = (r.ret ++ r.committing.map Prod.fst).map .doc) := by
  cases h with
  | draining _ hq hr => exact .inl ⟨hq, hr⟩
  | stalled _ hq hr => exact .inr ⟨_, _, hq, hr⟩
  | ended _ _ hs => simp [Stream.ended, hs] at hend
  | failed _ _ hs => simp [Stream.ended, hs] at hend
  | _ => simp_all

theorem Inv.of_committing (h : r.Inv) (hend : r.output.ended = false) (hph : r.phase = .committing) :
    r.committing = [] ∧ r.read = r.ret.map .doc ++ [.error .endOfStream] := by
  cases h with
  | committing _ hq hr => exact ⟨hq, hr⟩
  | ended _ _ hs => simp [Stream.ended, hs] at hend
  | failed _ _ hs => simp [Stream.ended, hs] at hend
  | _ => simp_all

theorem Inv.of_sending {rest : List ScanReturned} (h : r.Inv) (hend : r.output.ended = false)
    (hph : r.phase = .sending rest) :
    ∃ done, r.committing = [] ∧ r.ret = done ++ rest ∧ r.committed = some r.ret ∧
      r.read = r.ret.map .doc ++ [.error .endOfStream] ∧ r.output.sent = done.map .doc := by
  cases h with
  | sending h1 _ hq hret hc hr hs =>
    rw [hph] at h1
    cases h1
    exact ⟨_, hq, hret, hc, hr, hs⟩
  | ended _ _ hs => simp [Stream.ended, hs] at hend
  | failed _ _ hs => simp [Stream.ended, hs] at hend
  | _ => simp_all

end Views

/-- Settling a queued future keeps the queue's documents. -/
theorem map_fst_set {q : List (ScanReturned × FutureState)} {k : Nat} {d : ScanReturned} {x : FutureState}
    (hk : q[k]? = some (d, x)) (s : FutureState) : (q.set k (d, s)).map Prod.fst = q.map Prod.fst := by
  apply List.ext_getElem?
  intro n
  rw [List.getElem?_map, List.getElem?_map, List.getElem?_set]
  split
  · subst_vars
    simp [hk, (List.getElem?_eq_some_iff.1 hk).1]
  · rfl

/-- **The attempt's `catch` leaves the wrapper where `RetryRun` says**: a new attempt, or an
output ended by an error that is not retried. -/
theorem catchError_inv {r1 r' : Retry} {e : ErrorCode} (hc : r1.committed = none) (hs : r1.output.sent = [])
    (h : catchError env subPlan permits r1 e = some r') : r'.Inv := by
  have habort : e ≠ .retryable → (r1.abort e).Inv := fun he => RetryRun.failed he hc (by simp [abort, hs])
  unfold catchError at h
  split at h
  · cases h
    exact habort (by rintro rfl; simp_all)
  · split at h
    · obtain ⟨s, -, rfl⟩ := Option.map_eq_some'.1 h
      exact RetryRun.reading rfl (by simp) hc hs
    · cases h
      exact habort ‹_›

/-- **Every move keeps `doRetry` where `RetryRun` says.** -/
theorem Inv.step {r r' : Retry} (h : r.Inv) (hend : r.output.ended = false)
    (hs : RetryStep env subPlan permits r r') : r'.Inv := by
  cases hs with
  | inner _ => exact h
  | read hph _ =>
    obtain ⟨hc, hs⟩ := h.in_attempt hend (by simp [hph])
    exact RetryRun.reading hph (by simp [h.of_reading hend hph]) hc hs
  | ended hph _ =>
    obtain ⟨hc, hs⟩ := h.in_attempt hend (by simp [hph])
    have hr := h.of_reading hend hph
    by_cases hq : r.committing = []
    · exact RetryRun.committing (by simp [hq]) hq (by simp [hr, hq]) hc hs
    · exact RetryRun.draining (by simp [hq]) hq (by simp [hr]) hc hs
  | settle hk =>
    rename_i k d _ _
    cases h with
    | reading h1 h2 h3 h4 => exact RetryRun.reading h1 (by rw [map_fst_set hk]; exact h2) h3 h4
    | draining h1 h2 h3 h4 h5 =>
      exact RetryRun.draining h1 (by simpa using h2) (by rw [map_fst_set hk]; exact h3) h4 h5
    | stalled h1 h2 h3 h4 h5 =>
      rcases k with _ | k
      · simp [h2] at hk
      · exact RetryRun.stalled h1 (by rw [h2]; rfl) (by rw [map_fst_set hk]; exact h3) h4 h5
    | committing _ h2 => simp [h2] at hk
    | sending _ _ h2 => simp [h2] at hk
    | ended _ _ hs => simp [Stream.ended, hs] at hend
    | failed _ _ hs => simp [Stream.ended, hs] at hend
  | popReading hph hq =>
    obtain ⟨hc, hs⟩ := h.in_attempt hend (by simp [hph])
    exact RetryRun.reading hph (by simp [popFront, h.of_reading hend hph, hq]) hc hs
  | popDraining hph hq =>
    rename_i d rest
    obtain ⟨hc, hs⟩ := h.in_attempt hend (by simp [hph])
    rcases h.of_draining hend hph with ⟨-, hr⟩ | ⟨_, _, hq', -⟩
    · by_cases hrest : rest = []
      · exact RetryRun.committing (by simp [drain, popFront, hrest]) hrest (by simp [popFront, hr, hq, hrest]) hc hs
      · exact RetryRun.draining (by simp [drain, popFront, hrest]) hrest (by simp [popFront, hr, hq]) hc hs
    · simp [hq] at hq'
  | stall hph hq =>
    obtain ⟨hc, hs⟩ := h.in_attempt hend (by simp [hph])
    exact RetryRun.stalled (by simp [drain, hq]) hq (h.of_reading hend hph) hc hs
  | commit hph =>
    obtain ⟨hc, hs⟩ := h.in_attempt hend (by simp [hph])
    obtain ⟨hq, hr⟩ := h.of_committing hend hph
    rcases hret : r.ret with _ | ⟨d, rest⟩
    · exact RetryRun.ended (by simp [sendRest, abort, hret]) (by simp [sendRest, abort, hr, hret])
        (by simp [sendRest, abort, hs, hret])
    · exact @RetryRun.sending _ _ _ _ _ _ [] _ rfl (by simp) hq (by simp [sendRest, hret]) (by simp [sendRest, hret])
        (by simp [sendRest, hr, hret]) hs
  | send hph =>
    rename_i d rest
    obtain ⟨done, hq, hret, hc, hr, hs⟩ := h.of_sending hend hph
    rcases rest with _ | ⟨d', rest⟩
    · exact RetryRun.ended (by simp [sendRest, abort, hc]) (by simp [sendRest, abort, hr])
        (by simp [sendRest, abort, hs, hret])
    · exact @RetryRun.sending _ _ _ _ _ _ (done ++ [d]) _ rfl (by simp) hq
        (by simp [sendRest, hret]) (by simp [sendRest, hc]) (by simp [sendRest, hr]) (by simp [sendRest, hs])
  | raise hc hph ho hcm =>
    obtain ⟨hc0, hs0⟩ := h.in_attempt hend hph
    exact catchError_inv env subPlan permits (hcm.trans hc0) (ho ▸ hs0) hc

theorem Inv.move {r r' : Retry} {m : RetryMove} (h : r.Inv) (hm : r.move env subPlan permits m = some r') :
    r'.Inv :=
  let ⟨hend, hs⟩ := move_retryStep env subPlan permits hm
  h.step env subPlan permits hend hs

/-- **Every run keeps `doRetry` where `RetryRun` says.** -/
theorem Inv.run {r r' : Retry} {ms : List RetryMove} (h : r.Inv) (hr : run env subPlan permits r ms = some r') :
    r'.Inv := by
  induction ms generalizing r with
  | nil => cases hr; exact h
  | cons m ms ih =>
    obtain ⟨r1, h1, hrest⟩ := Option.bind_eq_some.1 hr
    exact ih (h.move env subPlan permits h1) hrest

/-- **The sending loop runs to its end**: from the phase of sending `rest`, one permit for
each document sends them all, then `end_of_stream`. -/
theorem run_permits : ∀ (rest : List ScanReturned) (r : Retry), r.phase = .sending rest → rest ≠ [] →
    r.output.ended = false → ∃ r', run env subPlan permits r (rest.map fun _ => .permit) = some r' ∧
      r'.output.sent = r.output.sent ++ rest.map .doc ++ [.error .endOfStream]
  | [], _, _, hne, _ => absurd rfl hne
  | d :: rest, r, hph, _, hend => by
    have hm : r.move env subPlan permits .permit =
        some (sendRest { r with output := r.output.send (.doc d) } rest) := by
      simp [move, hend, hph]
    cases rest with
    | nil => exact ⟨sendRest { r with output := r.output.send (.doc d) } [], by simp [run, hm],
        by simp [sendRest, abort]⟩
    | cons d' rest =>
      obtain ⟨r', hr', hs⟩ := run_permits (d' :: rest)
        (sendRest { r with output := r.output.send (.doc d) } (d' :: rest)) rfl (List.cons_ne_nil _ _)
        (by simpa [Stream.ended, sendRest] using hend)
      exact ⟨r', by rw [List.map_cons, run, hm, Option.some_bind]; exact hr', by simp [hs, sendRest]⟩

theorem inv_start {r0 : Retry} (h0 : start env subPlan permits = some r0) : r0.Inv := by
  obtain ⟨s, -, rfl⟩ := Option.map_eq_some'.1 h0
  exact RetryRun.reading rfl (by simp) rfl rfl

/-! ## Errors thrown into an attempt -/

/-- **An error thrown into the attempt reaches the attempt's `catch`**, from the wrapper as it
was or with its checkpoint stopped and the error read. -/
theorem move_thrown {r r' : Retry} {m : RetryMove} {e : ErrorCode}
    (h : r.move env subPlan permits m = some r') (he : r.thrown m = some e) :
    ∃ r1 : Retry, catchError env subPlan permits r1 e = some r' ∧ r1.output = r.output := by
  unfold move at h
  by_cases hend : r.output.ended
  · simp [hend] at h
  rw [if_neg hend] at h
  split at h <;> simp only [thrown, reduceCtorEq] at he
  · -- `waitNext(docs)`
    split at h
    next _ hp => simp [hp] at he
    next e' hp =>
      simp only [hp] at he
      by_cases he' : e' = .endOfStream
      · simp [he'] at he
      · simp only [he', if_false, Option.some.injEq] at he h
        subst he
        exact ⟨_, h, rfl⟩
    next => cases h
  · -- the front, while reading
    split at h
    next _ _ hq => simp [hq] at he
    next e' _ hq =>
      simp only [hq] at he
      by_cases he' : e' = .endOfStream
      · simp [he'] at he
      · simp only [he', if_false, Option.some.injEq] at he h
        subst he
        exact ⟨_, h, rfl⟩
    next => cases h
  · -- the front, while draining
    split at h
    next _ _ hq => simp [hq] at he
    next e' _ hq =>
      simp only [hq] at he
      by_cases he' : e' = .endOfStream
      · simp [he'] at he
      · simp only [he', if_false, Option.some.injEq] at he
        subst he
        exact ⟨r, h, rfl⟩
    next => cases h
  · -- the commit
    split at he
    · cases he
    · cases he
      exact ⟨r, h, rfl⟩
  · cases h

/-- **What the attempt's `catch` does**: a retryable error starts a new attempt, the output as
it was; any other ends the output with it. -/
theorem catchError_cases {r1 r' : Retry} {e : ErrorCode} (h : catchError env subPlan permits r1 e = some r') :
    (e = .retryable ∧ r'.phase = .reading ∧ r'.read = [] ∧ r'.committing = [] ∧ r'.ret = [] ∧
        r'.output = r1.output) ∨
      (e ≠ .retryable ∧ r' = r1.abort e) := by
  unfold catchError at h
  split at h
  · cases h
    exact .inr ⟨by rintro rfl; simp_all, rfl⟩
  · split at h
    · obtain ⟨s, -, rfl⟩ := Option.map_eq_some'.1 h
      exact .inl ⟨‹_›, rfl, rfl, rfl, rfl, rfl⟩
    · cases h
      exact .inr ⟨‹_›, rfl⟩

end Retry

/-- **What `doRetry` owes, in state `r`.** -/
structure RetryOwes (env : Env) (subPlan : Plan) (permits : Nat) (r : Retry) : Prop where
  /-- Its output: nothing before the transaction commits, then a prefix of the committed
  documents; or all of them, then `end_of_stream`; or a single error that is not retried. -/
  output : (∃ sent, r.output.sent = sent.map .doc ∧ sent <+: r.committed.getD []) ∨
    (∃ ds, r.committed = some ds ∧ r.output.sent = ds.map .doc ++ [.error .endOfStream]) ∨
    (∃ e, e ≠ .retryable ∧ r.committed = none ∧ r.output.sent = [.error e])
  /-- The committed documents are what `docs` delivered in the attempt that committed, in
  `docs` order, then its `end_of_stream`. -/
  committed : ∀ ds, r.committed = some ds → r.read = ds.map .doc ++ [.error .endOfStream]
  /-- Once the transaction has committed, the sending loop can run to its end: a run of
  permits sends all of its documents, then `end_of_stream`. -/
  sends : ∀ ds, r.committed = some ds → ∃ ps r', Retry.run env subPlan permits r ps = some r' ∧
    r'.output.sent = ds.map .doc ++ [.error .endOfStream]
  /-- An error thrown into the attempt starts a new attempt when it is retryable; any other
  ends the output with it, and nothing happens after. -/
  thrown : ∀ m r' e, r.move env subPlan permits m = some r' → r.thrown m = some e →
    (e = .retryable ∧ r'.phase = .reading ∧ r'.read = [] ∧ r'.committing = [] ∧ r'.ret = [] ∧
        r'.output = r.output) ∨
      (e ≠ .retryable ∧ r'.output.sent = r.output.sent ++ [.error e] ∧
        ∀ m', r'.move env subPlan permits m' = none)

/-- **`doRetry` emits the committed attempt.** Over every run of every subplan, whatever
fails when: nothing is sent before the transaction commits; what is sent is the documents
`docs` delivered in the attempt that committed, in that order, each once, then
`end_of_stream`, and once it has committed a run sends all of them; nothing of a failed
attempt is sent; and an error that is not retryable, `commit_unknown_result` included, ends
the output with it, with no further attempt. -/
theorem retry_emits_committed_attempt (env : Env) (subPlan : Plan) (permits : Nat) {r0 r : Retry}
    {ms : List RetryMove} (h0 : Retry.start env subPlan permits = some r0)
    (h : Retry.run env subPlan permits r0 ms = some r) : RetryOwes env subPlan permits r := by
  have hinv := (Retry.inv_start env subPlan permits h0).run env subPlan permits h
  refine ⟨?_, ?_, fun ds hds => ?_, fun m r' e hm he => ?_⟩
  · cases hinv with
    | sending _ _ _ hret hc _ hs => exact .inl ⟨_, hs, by simp [hc, hret]⟩
    | ended hc _ hs => exact .inr (.inl ⟨_, hc, hs⟩)
    | failed he hc hs => exact .inr (.inr ⟨_, he, hc, hs⟩)
    | _ => exact .inl ⟨[], by simpa, by simp⟩
  · intro ds hds
    cases hinv <;> simp_all
  · -- committed: the sending loop, or its end
    cases hinv with
    | sending hph hne _ hret hc _ hs =>
      obtain rfl : r.ret = ds := Option.some.inj (hc.symm.trans hds)
      obtain ⟨r', hr', hs'⟩ := Retry.run_permits env subPlan permits _ r hph hne (by simp [Stream.ended, hs])
      exact ⟨_, r', hr', by rw [hs', hs, hret]; simp⟩
    | ended hc _ hs =>
      obtain rfl : r.ret = ds := Option.some.inj (hc.symm.trans hds)
      exact ⟨[], r, rfl, hs⟩
    | _ => simp_all
  · obtain ⟨r1, hc, ho⟩ := Retry.move_thrown env subPlan permits hm he
    rcases Retry.catchError_cases env subPlan permits hc with ⟨hr, h1, h2, h3, h4, h5⟩ | ⟨hr, rfl⟩
    · exact .inl ⟨hr, h1, h2, h3, h4, h5.trans ho⟩
    · refine .inr ⟨hr, by simp [Retry.abort, ho], fun m' => ?_⟩
      simp [Retry.move, Retry.abort, Stream.ended]

/-- **A run of `doRetry` over a table scan of `docKey` and `laterKey`**: the scan delivers
both, the second's `commitChanges()` completes before the first's, both fronts are taken,
`docs` ends, the transaction commits and both documents are sent. -/
def twoDocRetryRun : List RetryMove :=
  [.inner 0 .input, .inner 0 .complete, .next, .inner 0 .input, .inner 0 .complete, .next,
    .inner 0 .input, .settle 1 none, .settle 0 none, .front, .front, .next, .commit none, .permit, .permit]

/-- **The run commits its one attempt**, and `doRetry` owes it what `RetryOwes` says. -/
theorem retry_tableScan_owes :
    ∃ r0 r, Retry.start twoDocEnv .tableScan 100 = some r0 ∧
      Retry.run twoDocEnv .tableScan 100 r0 twoDocRetryRun = some r ∧
      RetryOwes twoDocEnv .tableScan 100 r :=
  ⟨_, _, rfl, rfl, @retry_emits_committed_attempt twoDocEnv .tableScan 100 _ _ twoDocRetryRun rfl rfl⟩

/-- **`doRetry` sends in `docs` order, not in the order the commits complete.** A table scan
of `docKey` and `laterKey` whose second `commitChanges()` completes first: the wrapper
waits on the front of `committing`, so `ret`, and the output, hold `docKey` first. -/
theorem retry_order_is_not_completion_order :
    ∃ r0 r, Retry.start twoDocEnv .tableScan 100 = some r0 ∧
      Retry.run twoDocEnv .tableScan 100 r0 twoDocRetryRun = some r ∧
      r.settled.map ScanReturned.doc = [.stored laterKey, .stored docKey] ∧
      r.output.docs.map ScanReturned.doc = [.stored docKey, .stored laterKey] ∧
      r.output.sent.getLast? = some (.error .endOfStream) :=
  ⟨_, _, rfl, rfl, by decide, by decide, by decide⟩

end DocLayer
