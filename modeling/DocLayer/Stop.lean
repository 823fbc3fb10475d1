import DocLayer.Plan

/-! # Cancellation: `stop` and `stopAndCheckpoint`

`stop()` cancels the registered actors in the order of `ops`, a topological order of the
plan. An actor that has not returned runs its cancellation handler; with `boundsWanted` set,
the handlers write split keys:

* a range scan writes a key above the last document it sent (`doPKScan`: `strinc` of the
  primary key of the last key it processed, `pkSplitKey`; `toDocInfo`: `keyAfter` of its last
  entry);
* `doFilter`, `deduplicateIndexStream`, `doProject`, `doUpdate` write, for each document they
  hold, last to first, that document's scan key for its scan — so the first held document of
  each scan wins; `scanAndBuildIndex` does the same for the documents left in its input first;
  `projectAndUpdate` for the document it read;
* `doSinglePKLookup` and `doFlushChanges` write nothing and end their output with
  `actor_cancelled` instead; `doUnion`, `doSkip`, `doIndexInsert`, `doInsert` write nothing.

Each write goes through `splitBound`, whose `ASSERT` throws out of the handler when the scan
id names no slot; the handler then stops and `stop` goes on with the next actor. The model
reports whether that happened. `doPKScan`'s handler fails the same way, writing nothing, when
`strinc` asserts or when it has processed no key: `DataKey::decode_bytes` of the empty
`lastKey` has no item `0` to read, and what reading it does is not in the source.

`stopAndCheckpoint()` runs `stop()` with `boundsWanted` set and returns a fresh checkpoint
whose scan `s` has the bounds `[split[s], end[s])` and whose counters start at their live
values. It also returns the stopped checkpoint, which `doNonIsolatedRW` keeps using when the
commit fails. -/

namespace DocLayer

/-- **The split key `doPKScan`'s cancellation handler computes** from its `lastKey`:
`strinc(DataKey::decode_bytes(lastKey)[0])`; `none` when `lastKey` is empty, with no item `0`,
or when `strinc` asserts. -/
def pkSplitKey (env : Env) (lastKey : Key) : Option Key :=
  if lastKey = [] then none else strinc (env.firstItem lastKey)

/-- **Write `split[d.scanId] := d.scanKey` for each document, last to first**, stopping at the
first failed `ASSERT`; the flag says whether one failed. -/
def splitBoundsReverse (cp : PlanCheckpoint) (docs : List ScanReturned) : PlanCheckpoint × Bool :=
  docs.foldr
    (fun d acc => if acc.2 then acc else
      match acc.1.splitBound d.scanId d.scanKey with
      | some cp' => (cp', false)
      | none => (acc.1, true))
    (cp, false)

/-- **One split write** through `splitBound`, with the flag of a failed `ASSERT`. -/
def splitBoundOne (cp : PlanCheckpoint) (whichScan : Int) (key : Key) : PlanCheckpoint × Bool :=
  match cp.splitBound whichScan key with
  | some cp' => (cp', false)
  | none => (cp, true)

/-- The documents at the front of a stream's unread buffer, up to its first error:
what `while (input.isReady() && !input.isError()) input.pop()` collects. -/
def Stream.readyDocs (s : Stream) : List ScanReturned :=
  ((s.sent.drop s.taken).takeWhile fun m => m matches .doc _).filterMap Msg.toDoc?

/-- End operation `i`'s output with `actor_cancelled`, as a handler that rethrows into its
output does. -/
def PlanCheckpoint.sendCancelled (cp : PlanCheckpoint) (i : Nat) : PlanCheckpoint :=
  { cp with ops := cp.ops.modify (fun o => { o with output := o.output.send (.error .actorCancelled) }) i }

/-- **The cancellation handler of operation `i`** (actor `a`), run by `stop()`: the split
writes it makes when `boundsWanted` is set, and whether the handler failed. -/
def cancelOp (env : Env) (cp : PlanCheckpoint) (i : Nat) (a : Actor) : PlanCheckpoint × Bool :=
  match a with
  | .pkScan st =>
    if cp.boundsWanted then
      match pkSplitKey env st.lastKey with
      | some k => splitBoundOne cp st.scanId k
      | none => (cp, true)
    else (cp, false)
  | .docInfo st =>
    if cp.boundsWanted then splitBoundOne cp st.scanId (keyAfter st.lastKey) else (cp, false)
  | .singlePKLookup _ => (cp.sendCancelled i, false)
  | .headQueue .flushChanges _ => (cp.sendCancelled i, false)
  | .headQueue _ st => if cp.boundsWanted then splitBoundsReverse cp st.futures else (cp, false)
  | .buildIndex st =>
    if cp.boundsWanted then
      let left := ((cp.ops.get? st.input).map fun o => o.output.readyDocs).getD []
      let r := splitBoundsReverse cp left
      if r.2 then r else splitBoundsReverse r.1 st.futures
    else (cp, false)
  | .update st => if cp.boundsWanted then splitBoundsReverse cp st.futures else (cp, false)
  | .projectAndUpdate st =>
    match cp.boundsWanted && st.any, st.firstDoc with
    | true, some d => splitBoundOne cp d.scanId d.scanKey
    | _, _ => (cp, false)
  | .union _ | .skip _ | .indexInsert _ | .insert _ | .finished => (cp, false)

/-- **Cancel operations `i, i+1, ...` in order**, accumulating whether a handler failed. -/
def cancelFrom (env : Env) : PlanCheckpoint → Nat → List Op → PlanCheckpoint × Bool
  | cp, _, [] => (cp, false)
  | cp, i, o :: rest =>
    let r := cancelOp env cp i o.actor
    let r' := cancelFrom env r.1 (i + 1) rest
    (r'.1, r.2 || r'.2)

/-- **`stop()`**: cancel every registered actor in registration order, then drop the
operations and reset the scan and counter cursors. -/
def PlanCheckpoint.stop (env : Env) (cp : PlanCheckpoint) : PlanCheckpoint × Bool :=
  let r := cancelFrom env cp 0 cp.ops
  ({ r.1 with ops := [], scansAdded := 0, stateAdded := 0 }, r.2)

/-- **The checkpoint `stopAndCheckpoint()` returns**: scan `s` bounded by `[split[s], end[s])`
(its own split back at the default), counter `j` starting at its live value, nothing else. -/
def PlanCheckpoint.rest (cp : PlanCheckpoint) : PlanCheckpoint :=
  { PlanCheckpoint.new cp.flowControlLock.permits with
    scans := cp.scans.map fun si => { ScanInfo.default with bounds := (si.split, si.bounds.2) }
    states := cp.states.map fun s => IntState.ofValue s.split }

/-- **The outcome of `stopAndCheckpoint()`.** -/
structure Stopped where
  /-- The stopped checkpoint itself, its split keys written. -/
  stopped : PlanCheckpoint
  /-- The checkpoint returned, from which the next segment runs. -/
  next : PlanCheckpoint
  /-- Whether a cancellation handler failed: a `splitBound` assertion, or `doPKScan`'s split
  key (`pkSplitKey`). -/
  assertFailed : Bool

/-- **`stopAndCheckpoint()`**: `stop()` with `boundsWanted` set, then the checkpoint that
resumes after the stop point. -/
def PlanCheckpoint.stopAndCheckpoint (env : Env) (cp : PlanCheckpoint) : Stopped :=
  let r := PlanCheckpoint.stop env { cp with boundsWanted := true }
  ⟨{ r.1 with boundsWanted := false }, r.1.rest, r.2⟩

end DocLayer
