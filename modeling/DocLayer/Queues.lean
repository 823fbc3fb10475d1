import DocLayer.Scans

/-! # The head-of-queue actors

`doFilter`, `deduplicateIndexStream`, `doProject`, `doFlushChanges`, `scanAndBuildIndex` and
`doUpdate` share one shape: a `Deque` of (document, future) pairs. Each document read from the
input is pushed with the future the actor starts for it; when the HEAD future completes the
head is output (or dropped) and popped. So a document is output only after every document
received before it, whatever order the futures complete in. Once the input has ended the actor
drains the queue and ends its output.

* **`headQueueStep`** — the shared body, for the four actors that differ only in what the
  future computes (`QueueKind`); each of them is that body at its own kind.
* **`scanAndBuildIndex`** — the same loop, after an optional wait during which it does not
  read its input.
* **`doUpdate`** — the same loop with a counter: it stops reading once `count >= limit`, and
  after the drain inserts one document when an upsert is configured and `count == 0`. -/

namespace DocLayer

open Exec

variable (env : Env)

/-- **The write a head-of-queue actor issues when it receives a document**: `doFlushChanges`
starts `commitChanges()`; the others issue none. -/
def QueueKind.onReceive : QueueKind → ScanReturned → Exec → Exec
  | .flushChanges, d, x => x.write (.commitChanges d.doc)
  | _, _, x => x

@[simp] theorem QueueKind.onReceive_actorAt (kind : QueueKind) (d : ScanReturned) (x : Exec) (k : Nat) :
    (kind.onReceive d x).actorAt k = x.actorAt k := by cases kind <;> rfl

@[simp] theorem QueueKind.onReceive_sentAt (kind : QueueKind) (d : ScanReturned) (x : Exec) (k : Nat) :
    (kind.onReceive d x).sentAt k = x.sentAt k := by cases kind <;> rfl

@[simp] theorem QueueKind.onReceive_takenAt (kind : QueueKind) (d : ScanReturned) (x : Exec) (k : Nat) :
    (kind.onReceive d x).takenAt k = x.takenAt k := by cases kind <;> rfl

@[simp] theorem QueueKind.onReceive_cp (kind : QueueKind) (d : ScanReturned) (x : Exec) :
    (kind.onReceive d x).cp = x.cp := by
  cases kind <;> rfl

@[simp] theorem QueueKind.onReceive_scans (kind : QueueKind) (d : ScanReturned) (x : Exec) :
    (kind.onReceive d x).cp.scans = x.cp.scans := by cases kind <;> rfl

/-- **What the head document's completed future decides**: whether the document is output
(under its own scan id and scan key) or dropped. -/
def QueueKind.passes : QueueKind → ScanReturned → Bool
  | .filter p, d => env.predicate p d.doc
  | .dedup index ub, d => wouldBeLast index (env.fieldValues · d.doc) d.scanKey ub
  | .project, _ => true
  | .flushChanges, _ => true

/-- **The shared head-of-queue body**, as operation `i` of kind `kind`, woken by `ev`. A dropped
document gives its permit back to the document-finished lock. -/
def headQueueStep (kind : QueueKind) (x : Exec) (i : Nat) (st : HeadQueue) : Event → Option Exec
  | .input =>
    if st.inputEnded then none else
    match x.peek st.input with
    | some (.doc d) =>
      some ((kind.onReceive d (x.popInput st.input)).setActor i
        (.headQueue kind { st with futures := st.futures ++ [d] }))
    | some (.error .endOfStream) =>
      if st.futures = [] then some ((x.popInput st.input).finish i .endOfStream)
      else some ((x.popInput st.input).setActor i (.headQueue kind { st with inputEnded := true }))
    | some (.error e) => some ((x.popInput st.input).finish i e)
    | none => none
  | .complete =>
    match st.futures with
    | [] => none
    | d :: rest =>
      let x' := if kind.passes env d then x.send i (.doc d) else x.releasePermit
      if st.inputEnded ∧ rest = [] then some (x'.finish i .endOfStream)
      else some (x'.setActor i (.headQueue kind { st with futures := rest }))
  | .fail =>
    match st.futures with
    | [] => none
    | _ :: _ => some (x.finish i .retryable)
  | .inputB => none

/-- **`doFilter`**: the head-of-queue body evaluating `predicate`. -/
def doFilter (predicate : Predicate) := headQueueStep env (.filter predicate)

/-- **`deduplicateIndexStream`**: the head-of-queue body applying the would-be-last test of
`index` against the scan's upper bound. -/
def deduplicateIndexStream (index : IndexInfo) (indexUpperBound : Key) :=
  headQueueStep env (.dedup index indexUpperBound)

/-- **`doProject`**: the head-of-queue body projecting every document. -/
def doProject := headQueueStep env .project

/-- **`doFlushChanges`**: the head-of-queue body committing every document's changes. -/
def doFlushChanges := headQueueStep env .flushChanges

/-- **`scanAndBuildIndex`**, as operation `i`: first (`marking`) the wait for the commit of the
index document's progress marker, then the head-of-queue loop writing each document's index
entry. -/
def scanAndBuildIndex (x : Exec) (i : Nat) (st : BuildIndex) : Event → Option Exec
  | .input =>
    if st.marking ∨ st.inputEnded then none else
    match x.peek st.input with
    | some (.doc d) =>
      some (((x.popInput st.input).write (.buildIndexEntry d.doc)).setActor i
        (.buildIndex { st with futures := st.futures ++ [d] }))
    | some (.error .endOfStream) =>
      if st.futures = [] then some ((x.popInput st.input).finish i .endOfStream)
      else some ((x.popInput st.input).setActor i (.buildIndex { st with inputEnded := true }))
    | some (.error e) => some ((x.popInput st.input).finish i e)
    | none => none
  | .complete =>
    if st.marking then some (x.setActor i (.buildIndex { st with marking := false })) else
    match st.futures with
    | [] => none
    | d :: rest =>
      if st.inputEnded ∧ rest = [] then some ((x.send i (.doc d)).finish i .endOfStream)
      else some ((x.send i (.doc d)).setActor i (.buildIndex { st with futures := rest }))
  | .fail => if st.marking ∨ st.futures ≠ [] then some (x.finish i .retryable) else none
  | .inputB => none

/-- **`doUpdate` after its drain loop**: the upsert when one is configured and the counter is
`0`, otherwise the end of its output. -/
def updateAfterDrain (x : Exec) (i : Nat) (st : Update) : Exec :=
  if st.upsert ∧ x.counter st.slot = 0 then x.setActor i (.update { st with wait := .upsertPermit })
  else x.finish i .endOfStream

/-- **`doUpdate`**, as operation `i`. On receipt it starts the update, adds one to its counter
and stops reading once `count >= limit`; after the drain comes `updateAfterDrain`. The
upserted document has scan id `-1` and an empty scan key. -/
def doUpdate (x : Exec) (i : Nat) (st : Update) : Event → Option Exec
  | .input =>
    match st.wait, x.peek st.input with
    | .main true, some (.doc d) =>
      let count := x.counter st.slot + 1
      some ((((x.popInput st.input).write (.update d.doc)).setCounter st.slot count).setActor i
        (.update { st with futures := st.futures ++ [d], wait := .main (decide (count < st.limit)) }))
    | .main true, some (.error .endOfStream) =>
      if st.futures = [] then some (updateAfterDrain (x.popInput st.input) i st)
      else some ((x.popInput st.input).setActor i (.update { st with wait := .main false }))
    | .main true, some (.error e) => some ((x.popInput st.input).finish i e)
    | _, _ => none
  | .complete =>
    match st.wait, st.futures with
    | .main reading, d :: rest =>
      if ¬reading ∧ rest = [] then
        some (updateAfterDrain (x.send i (.doc d)) i { st with futures := [] })
      else some ((x.send i (.doc d)).setActor i (.update { st with futures := rest }))
    | .main _, [] => none
    | .upsertPermit, _ =>
      if x.canTake then some (x.takePermit.setActor i (.update { st with wait := .upsertInsert }))
      else none
    | .upsertInsert, _ =>
      some ((x.insertDoc.send i (.doc ⟨x.nextInserted, -1, []⟩)).finish i .endOfStream)
  | .inputB | .fail => none

end DocLayer
