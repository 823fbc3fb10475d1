import DocLayer.Checkpoint

/-! # The state of one execution and the actors' primitive moves

An execution is a `PlanCheckpoint` together with the writes its actors have issued into the
transaction. The database it reads is fixed for the run (`Env`): every result about the
executor is for a database that does not change under it.

* **`Env`** — the collection's keys, each index's entries, and the external primitives the
  actors call: the tuple decoder (`DataKey::decode_item`), predicate evaluation, path
  evaluation and the existing index descriptors.
* **`Effect`** — a write an actor issues: an update, a commit of a document's changes, an
  index entry, an insert.
* **`Exec`** — checkpoint, writes, and the number of documents inserted so far.
* The moves every actor is written with: `send`, `popInput`, `takePermit`, `releasePermit`,
  `setActor`, `finish`. -/

namespace DocLayer

/-- **The database and the external primitives**, fixed for one execution. -/
structure Env where
  /-- The keys of the collection, in key order: what `getDescendants` reads. -/
  table : List Key
  /-- The entries of each index, in key order. -/
  indexEntries : IndexInfo → List Key
  /-- `DataKey::decode_item(key, 0)`: the first tuple item of a key (the primary key). -/
  firstItem : Key → Key
  /-- `DataKey::decode_item_rev(key, 0)`: the last tuple item of a key. -/
  lastItem : Key → Key
  /-- `IPredicate::evaluate` on a document. -/
  predicate : Predicate → DocRef → Bool
  /-- The encoded values `ExtPathExpression(path, true, true)` yields on a document. -/
  fieldValues : Key → DocRef → List Key
  /-- The existing indexes of the collection: key spec and name. -/
  existingIndexes : List (List Key × Nat)
  /-- The database returns a range's keys in strictly increasing order. -/
  table_sorted : table.Sorted (· < ·)
  indexEntries_sorted : ∀ index, (indexEntries index).Sorted (· < ·)

/-- **A write an actor issues into the transaction.** -/
inductive Effect
  /-- `updateOp->update(doc)`. -/
  | update (d : DocRef)
  /-- `doc->commitChanges()`. -/
  | commitChanges (d : DocRef)
  /-- `buildIndexEntry(doc, index)`. -/
  | buildIndexEntry (d : DocRef)
  /-- `insertOp->insert(cx)`: a new document. -/
  | insert (d : DocRef)
  deriving DecidableEq, Repr

/-- **One execution**: the checkpoint, the writes issued, in order, and how many documents
have been inserted. -/
structure Exec where
  cp : PlanCheckpoint
  effects : List Effect
  inserted : Nat
  deriving Repr

/-- **What can happen next to an actor.** -/
inductive Event
  /-- The actor's (first) input stream or range read delivers its next item; `doInsert`, which
  reads no stream, gets the permit for its next document. -/
  | input
  /-- `doUnion`'s second input delivers its next item. -/
  | inputB
  /-- The future the actor waits on completes: a permit, a get, the head document's future,
  an insert, a commit. -/
  | complete
  /-- The read the actor waits on fails with a retryable error. -/
  | fail
  deriving DecidableEq, Repr

namespace Exec

/-- The operation registered at index `i`. -/
def op? (x : Exec) (i : Nat) : Option Op := x.cp.ops[i]?

/-- Replace the actor of operation `i`. -/
def setActor (x : Exec) (i : Nat) (a : Actor) : Exec :=
  { x with cp := { x.cp with ops := x.cp.ops.modify (fun o => { o with actor := a }) i } }

/-- Operation `i` sends a message on its output stream. -/
def send (x : Exec) (i : Nat) (m : Msg) : Exec :=
  { x with cp := { x.cp with ops := x.cp.ops.modify (fun o => { o with output := o.output.send m }) i } }

/-- The next unread message on the output of operation `j`. -/
def peek (x : Exec) (j : Nat) : Option Msg := (x.op? j).bind fun o => o.output.peek

/-- The consumer of operation `j`'s output takes one message. -/
def popInput (x : Exec) (j : Nat) : Exec :=
  { x with cp := { x.cp with ops := x.cp.ops.modify (fun o => { o with output := o.output.pop }) j } }

/-- Whether the document-finished lock has a free permit. -/
def canTake (x : Exec) : Bool := x.cp.flowControlLock.canTake

/-- `getDocumentFinishedLock()->take()`. -/
def takePermit (x : Exec) : Exec :=
  { x with cp := { x.cp with flowControlLock := x.cp.flowControlLock.take } }

/-- `getDocumentFinishedLock()->release()`. -/
def releasePermit (x : Exec) : Exec :=
  { x with cp := { x.cp with flowControlLock := x.cp.flowControlLock.release } }

/-- Issue a write into the transaction. -/
def write (x : Exec) (e : Effect) : Exec := { x with effects := x.effects ++ [e] }

/-- The name the next inserted document gets. -/
def nextInserted (x : Exec) : DocRef := .inserted x.inserted

/-- Insert a new document, named `x.nextInserted`: issue the insert. -/
def insertDoc (x : Exec) : Exec :=
  { x with effects := x.effects ++ [.insert x.nextInserted], inserted := x.inserted + 1 }

/-- Operation `i` ends its output with an error (`end_of_stream` included) and returns. -/
def finish (x : Exec) (i : Nat) (e : ErrorCode) : Exec :=
  (x.send i (.error e)).setActor i .finished

/-- The live value of counter slot `slot`. -/
def counter (x : Exec) (slot : Nat) : Int := x.cp.counter slot

/-- Write counter slot `slot`. -/
def setCounter (x : Exec) (slot : Nat) (v : Int) : Exec := { x with cp := x.cp.setCounter slot v }

/-! ## Where each move leaves the operations

Three projections of operation `k` — its actor, the messages sent on its output, and how many
its consumer took — and how each move changes them: only the mover's actor and output, and
the `taken` of the stream it reads. -/

/-- The actor of operation `k`. -/
def actorAt (x : Exec) (k : Nat) : Option Actor := (x.op? k).map Op.actor

/-- The messages operation `k` has sent. -/
def sentAt (x : Exec) (k : Nat) : Option (List Msg) := (x.op? k).map fun o => o.output.sent

/-- How many messages of operation `k`'s output its consumer has taken. -/
def takenAt (x : Exec) (k : Nat) : Option Nat := (x.op? k).map fun o => o.output.taken

@[simp] theorem setActor_actorAt (x : Exec) (i : Nat) (a : Actor) (k : Nat) :
    (x.setActor i a).actorAt k = if k = i then (x.actorAt k).map fun _ => a else x.actorAt k := by
  simp only [actorAt, op?, setActor, List.getElem?_modify]
  by_cases h : k = i
  · subst h; simp [Option.map_map, Function.comp_def]
  · simp [h, Ne.symm h]

@[simp] theorem setActor_sentAt (x : Exec) (i : Nat) (a : Actor) (k : Nat) :
    (x.setActor i a).sentAt k = x.sentAt k := by
  simp only [sentAt, op?, setActor, List.getElem?_modify]
  split <;> simp_all [Option.map_map, Function.comp_def]

@[simp] theorem setActor_takenAt (x : Exec) (i : Nat) (a : Actor) (k : Nat) :
    (x.setActor i a).takenAt k = x.takenAt k := by
  simp only [takenAt, op?, setActor, List.getElem?_modify]
  split <;> simp_all [Option.map_map, Function.comp_def]

@[simp] theorem send_actorAt (x : Exec) (i : Nat) (m : Msg) (k : Nat) :
    (x.send i m).actorAt k = x.actorAt k := by
  simp only [actorAt, op?, send, List.getElem?_modify]
  split <;> simp_all [Option.map_map, Function.comp_def]

@[simp] theorem send_sentAt (x : Exec) (i : Nat) (m : Msg) (k : Nat) :
    (x.send i m).sentAt k = if k = i then (x.sentAt k).map (· ++ [m]) else x.sentAt k := by
  simp only [sentAt, op?, send, List.getElem?_modify]
  by_cases h : k = i
  · subst h; simp [Option.map_map, Function.comp_def]
  · simp [h, Ne.symm h]

@[simp] theorem send_takenAt (x : Exec) (i : Nat) (m : Msg) (k : Nat) :
    (x.send i m).takenAt k = x.takenAt k := by
  simp only [takenAt, op?, send, List.getElem?_modify]
  split <;> simp_all [Option.map_map, Function.comp_def]

@[simp] theorem popInput_actorAt (x : Exec) (j k : Nat) : (x.popInput j).actorAt k = x.actorAt k := by
  simp only [actorAt, op?, popInput, List.getElem?_modify]
  split <;> simp_all [Option.map_map, Function.comp_def]

@[simp] theorem popInput_sentAt (x : Exec) (j k : Nat) : (x.popInput j).sentAt k = x.sentAt k := by
  simp only [sentAt, op?, popInput, List.getElem?_modify]
  split <;> simp_all [Option.map_map, Function.comp_def]

@[simp] theorem popInput_takenAt (x : Exec) (j k : Nat) :
    (x.popInput j).takenAt k = if k = j then (x.takenAt k).map (· + 1) else x.takenAt k := by
  simp only [takenAt, op?, popInput, List.getElem?_modify]
  by_cases h : k = j
  · subst h; simp [Option.map_map, Function.comp_def]
  · simp [h, Ne.symm h]

@[simp] theorem takePermit_actorAt (x : Exec) (k : Nat) : x.takePermit.actorAt k = x.actorAt k := rfl
@[simp] theorem takePermit_sentAt (x : Exec) (k : Nat) : x.takePermit.sentAt k = x.sentAt k := rfl
@[simp] theorem takePermit_takenAt (x : Exec) (k : Nat) : x.takePermit.takenAt k = x.takenAt k := rfl
@[simp] theorem releasePermit_actorAt (x : Exec) (k : Nat) : x.releasePermit.actorAt k = x.actorAt k := rfl
@[simp] theorem releasePermit_sentAt (x : Exec) (k : Nat) : x.releasePermit.sentAt k = x.sentAt k := rfl
@[simp] theorem releasePermit_takenAt (x : Exec) (k : Nat) :
    x.releasePermit.takenAt k = x.takenAt k := rfl
@[simp] theorem write_actorAt (x : Exec) (e : Effect) (k : Nat) : (x.write e).actorAt k = x.actorAt k := rfl
@[simp] theorem write_sentAt (x : Exec) (e : Effect) (k : Nat) : (x.write e).sentAt k = x.sentAt k := rfl
@[simp] theorem write_takenAt (x : Exec) (e : Effect) (k : Nat) : (x.write e).takenAt k = x.takenAt k := rfl
@[simp] theorem insertDoc_actorAt (x : Exec) (k : Nat) : x.insertDoc.actorAt k = x.actorAt k := rfl
@[simp] theorem insertDoc_sentAt (x : Exec) (k : Nat) : x.insertDoc.sentAt k = x.sentAt k := rfl
@[simp] theorem insertDoc_takenAt (x : Exec) (k : Nat) : x.insertDoc.takenAt k = x.takenAt k := rfl
@[simp] theorem setCounter_actorAt (x : Exec) (slot : Nat) (v : Int) (k : Nat) :
    (x.setCounter slot v).actorAt k = x.actorAt k := rfl
@[simp] theorem setCounter_sentAt (x : Exec) (slot : Nat) (v : Int) (k : Nat) :
    (x.setCounter slot v).sentAt k = x.sentAt k := rfl
@[simp] theorem setCounter_takenAt (x : Exec) (slot : Nat) (v : Int) (k : Nat) :
    (x.setCounter slot v).takenAt k = x.takenAt k := rfl
@[simp] theorem setActor_counter (x : Exec) (i : Nat) (a : Actor) (slot : Nat) :
    (x.setActor i a).counter slot = x.counter slot := rfl
@[simp] theorem send_counter (x : Exec) (i : Nat) (m : Msg) (slot : Nat) :
    (x.send i m).counter slot = x.counter slot := rfl
@[simp] theorem popInput_counter (x : Exec) (j slot : Nat) : (x.popInput j).counter slot = x.counter slot :=
  rfl
@[simp] theorem finish_eq (x : Exec) (i : Nat) (e : ErrorCode) :
    x.finish i e = (x.send i (.error e)).setActor i .finished := rfl

end Exec

end DocLayer
