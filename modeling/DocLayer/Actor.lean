import DocLayer.WouldBeLast

/-! # The local state of every plan actor

A Flow `ACTOR` is a state machine whose states are its `wait` points together with its `state`
variables. Each structure below holds one actor's state variables and the wait it is
suspended at; the behaviour is in `DocLayer.Operators`. The actors that read an input stream
name it by the index of the operation that produces it, which is how `PlanCheckpoint::ops`
orders them.

* **Scans** — `PKScan` (`doPKScan`), `DocInfo` (`toDocInfo`), `SinglePKLookup`.
* **Head-of-queue actors** — `HeadQueue` for `doFilter`, `deduplicateIndexStream`,
  `doProject` and `doFlushChanges`; `BuildIndex` for `scanAndBuildIndex`; `Update` for
  `doUpdate`.
* **The rest** — `Union` (`doUnion`), `Skip` (`doSkip`), `ProjectAndUpdate`,
  `IndexInsert` (`doIndexInsert`), `InsertDocs` (`doInsert`). -/

namespace DocLayer

/-- **Where a range reader is suspended** (`doPKScan`, `toDocInfo`). -/
inductive ReadWait
  /-- `waitNext(kvs)`: waiting for the next key of the range read. -/
  | nextKey
  /-- `wait(outputLock->take())`, holding the key of the document it is about to send. -/
  | permit (key : Key)
  deriving DecidableEq, Repr

/-- The key a range reader holds while it waits for a permit. -/
def ReadWait.pending : ReadWait → List Key
  | .nextKey => []
  | .permit k => [k]

/-- **`doPKScan`'s state**: the keys `getDescendants` has still to deliver, the primary key and
the key last processed, and its wait. -/
structure PKScan where
  scanId : Nat
  kvs : List Key
  lastPK : Key
  lastKey : Key
  wait : ReadWait
  deriving DecidableEq, Repr

/-- **`toDocInfo`'s state**: the index keys still to deliver and the key last sent. -/
structure DocInfo where
  scanId : Nat
  kvs : List Key
  lastKey : Key
  wait : ReadWait
  deriving DecidableEq, Repr

/-- **Where `doSinglePKLookup` is suspended.** -/
inductive LookupWait
  /-- `wait(cx->cx->get(x))`. -/
  | get
  /-- `wait(flowControlLock->take(1))`, the document having been found. -/
  | permit
  deriving DecidableEq, Repr

/-- **`doSinglePKLookup`'s state**: the encoded primary key it looks up. -/
structure SinglePKLookup where
  scanId : Nat
  key : Key
  wait : LookupWait
  deriving DecidableEq, Repr

/-- **What a head-of-queue actor computes for each document.** -/
inductive QueueKind
  /-- `doFilter`: the predicate decides whether the document passes. -/
  | filter (predicate : Predicate)
  /-- `deduplicateIndexStream`: the would-be-last test against the scan's upper bound. -/
  | dedup (index : IndexInfo) (indexUpperBound : Key)
  /-- `doProject`: every document passes, re-wrapped as its projection. -/
  | project
  /-- `doFlushChanges`: every document passes once its changes are committed. -/
  | flushChanges
  deriving Repr

/-- **A head-of-queue actor's state**: `futures`, the documents received and not yet output,
oldest first, each with its pending future; and whether its input has ended. -/
structure HeadQueue where
  input : Nat
  futures : List ScanReturned
  inputEnded : Bool
  deriving DecidableEq, Repr

/-- **`scanAndBuildIndex`'s state**: like `HeadQueue`, and before its loop it may wait for the
commit of the index document's progress marker, not reading its input meanwhile. -/
structure BuildIndex where
  input : Nat
  futures : List ScanReturned
  inputEnded : Bool
  marking : Bool
  deriving DecidableEq, Repr

/-- **Where `doUpdate` is suspended.** -/
inductive UpdateWait
  /-- In the `loop choose` (`reading`) or the drain loop after it. -/
  | main (reading : Bool)
  /-- `wait(flowControlLock->take())` before the upsert. -/
  | upsertPermit
  /-- `wait(upsertOp->insert(...))`. -/
  | upsertInsert
  deriving DecidableEq, Repr

/-- **`doUpdate`'s state**: the limit, whether an upsert is configured, the slot of its counter
in the checkpoint's states, the documents whose update is pending, and its wait. -/
structure Update where
  input : Nat
  limit : Int
  upsert : Bool
  slot : Nat
  futures : List ScanReturned
  wait : UpdateWait
  deriving DecidableEq, Repr

/-- **`doUnion`'s state**: its two inputs and which of them are still open. -/
structure Union where
  a : Nat
  b : Nat
  aOpen : Bool
  bOpen : Bool
  deriving DecidableEq, Repr

/-- **`doSkip`'s state**: its input and the slot of its `leftToSkip` counter. -/
structure Skip where
  input : Nat
  slot : Nat
  deriving DecidableEq, Repr

/-- **Where `projectAndUpdate` is suspended**, in the order its body reaches the waits. -/
inductive PAUWait
  | input
  | projectOld
  | update
  | upsertPermit
  | upsertInsert
  | commit
  | projectNew
  deriving DecidableEq, Repr

/-- **`projectAndUpdate`'s state**: the first document read (if any) and its wait. -/
structure ProjectAndUpdate where
  input : Nat
  upsert : Bool
  projectNew : Bool
  firstDoc : Option ScanReturned
  any : Bool
  wait : PAUWait
  deriving DecidableEq, Repr

/-- **Where `doIndexInsert` is suspended.** The three metadata reads are one wait here. -/
inductive IndexInsertWait
  | permit
  | readIndexes
  | insert
  deriving DecidableEq, Repr

/-- **`doIndexInsert`'s state**: the new index's key spec and name, and its wait. -/
structure IndexInsert where
  keySpec : List Key
  name : Nat
  wait : IndexInsertWait
  deriving DecidableEq, Repr

/-- **Where `doInsert` is suspended.** -/
inductive InsertWait
  /-- `wait(mm->getUnboundCollectionContext(tr, ns))`. -/
  | metadata
  /-- In the insert loop, a `choose` over a permit and the front insert, and, once every
  document's insert has started, in the drain over the inserts still pending. -/
  | inserting
  deriving DecidableEq, Repr

/-- **`doInsert`'s state**: the documents whose insert has not started, in list order, and
`f`, those whose insert has started and that have not been sent, oldest first. -/
structure InsertDocs where
  docs : List DocRef
  pending : List DocRef
  wait : InsertWait
  deriving DecidableEq, Repr

/-- **A registered plan actor**, or `finished` once it has returned or thrown. -/
inductive Actor
  | pkScan (st : PKScan)
  | docInfo (st : DocInfo)
  | singlePKLookup (st : SinglePKLookup)
  | headQueue (kind : QueueKind) (st : HeadQueue)
  | buildIndex (st : BuildIndex)
  | update (st : Update)
  | union (st : Union)
  | skip (st : Skip)
  | projectAndUpdate (st : ProjectAndUpdate)
  | indexInsert (st : IndexInsert)
  | insert (st : InsertDocs)
  | finished
  deriving Repr

end DocLayer
