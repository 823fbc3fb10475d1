import DocLayer.Queues

/-! # The remaining actors and the step of an execution

* **`doUnion`** — forwards whatever either input delivers; an input's `end_of_stream` closes
  that side (and the other side too when its future has already failed); the output ends
  when both sides are closed, or with the first other error.
* **`doSkip`** — drops (releasing the permit) while its counter is non-zero, then forwards.
* **`projectAndUpdate`** — reads at most one document, then updates it or upserts, commits
  and outputs its projection; a straight-line body, one wait after another.
* **`doIndexInsert`** — takes a permit, checks the existing indexes, inserts the descriptor.
* **`doInsert`** — starts each document's insert under a permit and sends the inserted
  documents in list order, whatever order the inserts complete in.
* **`Exec.step`** — wake operation `i` with event `ev`: the one step function every
  execution is made of. -/

namespace DocLayer

open Exec

variable (env : Env)

/-- **`doUnion` when side `a` delivers an `end_of_stream`.** The `ASSERT` on the two futures'
errors fails when `b`'s future holds another error: the assertion throws out of the catch
block and the actor returns without ending its output. Otherwise side `a` closes, side `b`
closes too if its future has failed, and once both are closed the output ends. -/
def unionEndOfStream (x : Exec) (i : Nat) (b : Nat) (bOpen : Bool)
    (reopen : Bool → Bool → Union) : Exec :=
  match bOpen, x.peek b with
  | true, some (.error e) =>
    if e = .endOfStream then (x.popInput b).finish i .endOfStream else x.setActor i .finished
  | true, _ => x.setActor i (.union (reopen false true))
  | false, _ => x.finish i .endOfStream

/-- **`doUnion`**, as operation `i`: `input` wakes side `a`, `inputB` side `b`. -/
def doUnion (x : Exec) (i : Nat) (st : Union) : Event → Option Exec
  | .input =>
    if ¬st.aOpen then none else
    match x.peek st.a with
    | some (.doc d) => some ((x.popInput st.a).send i (.doc d))
    | some (.error .endOfStream) =>
      some (unionEndOfStream (x.popInput st.a) i st.b st.bOpen
        fun a b => { st with aOpen := a, bOpen := b })
    | some (.error e) => some ((x.popInput st.a).finish i e)
    | none => none
  | .inputB =>
    if ¬st.bOpen then none else
    match x.peek st.b with
    | some (.doc d) => some ((x.popInput st.b).send i (.doc d))
    | some (.error .endOfStream) =>
      some (unionEndOfStream (x.popInput st.b) i st.a st.aOpen
        fun b a => { st with aOpen := a, bOpen := b })
    | some (.error e) => some ((x.popInput st.b).finish i e)
    | none => none
  | .complete | .fail => none

/-- **`doSkip`**, as operation `i`: while `leftToSkip != 0` each document is dropped, its permit
released and the counter decremented; afterwards every document is forwarded. -/
def doSkip (x : Exec) (i : Nat) (st : Skip) : Event → Option Exec
  | .input =>
    match x.peek st.input with
    | some (.doc d) =>
      if x.counter st.slot ≠ 0 then
        some (((x.popInput st.input).releasePermit).setCounter st.slot (x.counter st.slot - 1))
      else some ((x.popInput st.input).send i (.doc d))
    | some (.error e) => some ((x.popInput st.input).finish i e)
    | none => none
  | .complete | .inputB | .fail => none

/-- **`projectAndUpdate`'s last statement**: output the projection when a document was found,
or when the upserted one is to be projected; then end the output. -/
def pauOutput (x : Exec) (i : Nat) (st : ProjectAndUpdate) : Exec :=
  match st.any || (st.projectNew && st.upsert), st.firstDoc with
  | true, some d => (x.send i (.doc d)).finish i .endOfStream
  | _, _ => x.finish i .endOfStream

/-- **From `if (projectNew && (any || upsertOp))` on.** -/
def pauProjectNew (x : Exec) (i : Nat) (st : ProjectAndUpdate) : Exec :=
  if st.projectNew && (st.any || st.upsert) then
    x.setActor i (.projectAndUpdate { st with wait := .projectNew })
  else pauOutput x i st

/-- **From `if (any || upsertOp)` on**: commit the document's changes. -/
def pauCommit (x : Exec) (i : Nat) (st : ProjectAndUpdate) : Exec :=
  match st.any || st.upsert, st.firstDoc with
  | true, some d => (x.write (.commitChanges d.doc)).setActor i
      (.projectAndUpdate { st with wait := .commit })
  | _, _ => pauProjectNew x i st

/-- **From `if (any) update else if (upsertOp) insert` on.** -/
def pauMutate (x : Exec) (i : Nat) (st : ProjectAndUpdate) : Exec :=
  match st.any, st.firstDoc with
  | true, some d => (x.write (.update d.doc)).setActor i (.projectAndUpdate { st with wait := .update })
  | _, _ =>
    if st.upsert then x.setActor i (.projectAndUpdate { st with wait := .upsertPermit })
    else pauCommit x i st

/-- **From `if (!projectNew && any)` on**: project the document before the update. -/
def pauProjectOld (x : Exec) (i : Nat) (st : ProjectAndUpdate) : Exec :=
  if !st.projectNew && st.any then x.setActor i (.projectAndUpdate { st with wait := .projectOld })
  else pauMutate x i st

/-- **`projectAndUpdate`**, as operation `i`: read one document (or the end of the input), then
run the body's waits in order. The upsert takes a permit; its document has scan id `-1`. -/
def projectAndUpdate (x : Exec) (i : Nat) (st : ProjectAndUpdate) : Event → Option Exec
  | .input =>
    match st.wait, x.peek st.input with
    | .input, some (.doc d) =>
      some (pauProjectOld (x.popInput st.input) i { st with firstDoc := some d, any := true })
    | .input, some (.error .endOfStream) =>
      some (pauProjectOld (x.popInput st.input) i { st with any := false })
    | .input, some (.error e) => some ((x.popInput st.input).finish i e)
    | _, _ => none
  | .complete =>
    match st.wait with
    | .input => none
    | .projectOld => some (pauMutate x i st)
    | .update => some (pauCommit x i st)
    | .upsertPermit =>
      if x.canTake then
        some (x.takePermit.setActor i (.projectAndUpdate { st with wait := .upsertInsert }))
      else none
    | .upsertInsert =>
      some (pauCommit x.insertDoc i { st with firstDoc := some ⟨x.nextInserted, -1, []⟩ })
    | .commit => some (pauProjectNew x i st)
    | .projectNew => some (pauOutput x i st)
  | .inputB | .fail => none

/-- **`doIndexInsert`**, as operation `i`. The first existing index with the same key spec
ends the output with `end_of_stream` (`index_already_exists` is turned into success); one with
the same name ends it with `index_name_taken`; otherwise the descriptor is inserted and sent
with scan id `-1`. -/
def doIndexInsert (x : Exec) (i : Nat) (st : IndexInsert) : Event → Option Exec
  | .complete =>
    match st.wait with
    | .permit =>
      if x.canTake then some (x.takePermit.setActor i (.indexInsert { st with wait := .readIndexes }))
      else none
    | .readIndexes =>
      match env.existingIndexes.find? (fun ix => ix.1 = st.keySpec ∨ ix.2 = st.name) with
      | some ix =>
        if ix.1 = st.keySpec then some (x.finish i .endOfStream) else some (x.finish i .indexNameTaken)
      | none => some (x.setActor i (.indexInsert { st with wait := .insert }))
    | .insert =>
      some ((x.insertDoc.send i (.doc ⟨x.nextInserted, -1, []⟩)).finish i .endOfStream)
  | .input | .inputB | .fail => none

/-- **`doInsert` at the head of its loop**: once every document's insert has started and been
sent it ends its output with `end_of_stream`; otherwise it waits, in the loop's `choose` or in
the drain. -/
def insertLoop (x : Exec) (i : Nat) (st : InsertDocs) : Exec :=
  if st.docs = [] ∧ st.pending = [] then x.finish i .endOfStream else x.setActor i (.insert st)

/-- **`doInsert`**, as operation `i`. Once the collection's metadata is read, each iteration of
its loop either takes a permit and starts the next document's insert (`input`), or sends the
document of the oldest pending insert (`complete`) under scan id `-1` and an empty scan key;
after the last insert has started, the drain sends the pending ones in order. -/
def doInsert (x : Exec) (i : Nat) (st : InsertDocs) : Event → Option Exec
  | .input =>
    match st.wait, st.docs with
    | .inserting, d :: rest =>
      if x.canTake then
        some (insertLoop (x.takePermit.write (.insert d)) i
          { st with docs := rest, pending := st.pending ++ [d] })
      else none
    | _, _ => none
  | .complete =>
    match st.wait, st.pending with
    | .metadata, _ => some (insertLoop x i { st with wait := .inserting })
    | .inserting, d :: rest => some (insertLoop (x.send i (.doc ⟨d, -1, []⟩)) i { st with pending := rest })
    | .inserting, [] => none
  | .fail =>
    match st.wait, st.pending with
    | .metadata, _ | .inserting, _ :: _ => some (x.finish i .retryable)
    | .inserting, [] => none
  | .inputB => none

/-- **The head-of-queue actor of each kind**, by its source name. -/
def headQueueActor (kind : QueueKind) : Exec → Nat → HeadQueue → Event → Option Exec :=
  match kind with
  | .filter p => doFilter env p
  | .dedup index ub => deduplicateIndexStream env index ub
  | .project => doProject env
  | .flushChanges => doFlushChanges env

/-- **One step of an execution**: operation `i` is woken by `ev`; `none` when that cannot
happen now. -/
def Exec.step (x : Exec) (i : Nat) (ev : Event) : Option Exec :=
  match x.op? i with
  | none => none
  | some o =>
    match o.actor with
    | .pkScan st => doPKScan env x i st ev
    | .docInfo st => toDocInfo env x i st ev
    | .singlePKLookup st => doSinglePKLookup env x i st ev
    | .headQueue kind st => headQueueActor env kind x i st ev
    | .buildIndex st => scanAndBuildIndex x i st ev
    | .update st => doUpdate x i st ev
    | .union st => doUnion x i st ev
    | .skip st => doSkip x i st ev
    | .projectAndUpdate st => projectAndUpdate x i st ev
    | .indexInsert st => doIndexInsert env x i st ev
    | .insert st => doInsert x i st ev
    | .finished => none

theorem headQueueActor_eq (kind : QueueKind) : headQueueActor env kind = headQueueStep env kind := by
  cases kind <;> rfl

end DocLayer
