import DocLayer.Exec

/-! # The scan actors

The three actors that produce documents from the database, each a step function on the
execution: given the event that wakes it, the actor's next state, what it sent and what it
took from the lock. `none` means the event cannot happen to the actor in its state.

* **`doPKScan`** — reads the keys of a range in order, sends one document per run of keys with
  the same primary key (at the run's first key), taking a permit for each.
* **`toDocInfo`** — reads index entries and sends one document per entry.
* **`doSinglePKLookup`** — looks up one primary key and sends its document if it exists.

A read may fail with a retryable error at any point (`Event.fail`); the actor then ends its
output with that error. -/

namespace DocLayer

open Exec

variable (env : Env)

/-- **`doPKScan`**, woken by `ev`, as operation `i`. On a new primary key it waits for a permit
holding the key; the document it sends is the sub-context of that primary key, tagged with
the key. `lastKey` is only updated once the key is processed. -/
def doPKScan (x : Exec) (i : Nat) (st : PKScan) : Event → Option Exec
  | .input =>
    match st.wait, st.kvs with
    | .nextKey, k :: rest =>
      if env.firstItem k ≠ st.lastPK then
        some (x.setActor i (.pkScan { st with kvs := rest, lastPK := env.firstItem k, wait := .permit k }))
      else some (x.setActor i (.pkScan { st with kvs := rest, lastKey := k }))
    | .nextKey, [] => some (x.finish i .endOfStream)
    | .permit _, _ => none
  | .complete =>
    match st.wait with
    | .permit k =>
      if x.canTake then
        some ((x.takePermit.send i (.doc ⟨.stored st.lastPK, st.scanId, k⟩)).setActor i
          (.pkScan { st with lastKey := k, wait := .nextKey }))
      else none
    | .nextKey => none
  | .fail =>
    match st.wait with
    | .nextKey => some (x.finish i .retryable)
    | .permit _ => none
  | .inputB => none

/-- **`toDocInfo`**, woken by `ev`, as operation `i`: every index entry becomes a document
(the sub-context of the entry's last item, the primary key), sent under a permit. -/
def toDocInfo (x : Exec) (i : Nat) (st : DocInfo) : Event → Option Exec
  | .input =>
    match st.wait, st.kvs with
    | .nextKey, k :: rest => some (x.setActor i (.docInfo { st with kvs := rest, wait := .permit k }))
    | .nextKey, [] => some (x.finish i .endOfStream)
    | .permit _, _ => none
  | .complete =>
    match st.wait with
    | .permit k =>
      if x.canTake then
        some ((x.takePermit.send i (.doc ⟨.stored (env.lastItem k), st.scanId, k⟩)).setActor i
          (.docInfo { st with lastKey := k, wait := .nextKey }))
      else none
    | .nextKey => none
  | .fail =>
    match st.wait with
    | .nextKey => some (x.finish i .retryable)
    | .permit _ => none
  | .inputB => none

/-- **`doSinglePKLookup`**, woken by `ev`, as operation `i`, after its bounds check passed: the
`get` finds the document or not; a found document is sent under a permit; either way the
output then ends. -/
def doSinglePKLookup (x : Exec) (i : Nat) (st : SinglePKLookup) : Event → Option Exec
  | .complete =>
    match st.wait with
    | .get =>
      if st.key ∈ env.table then some (x.setActor i (.singlePKLookup { st with wait := .permit }))
      else some (x.finish i .endOfStream)
    | .permit =>
      if x.canTake then
        some ((x.takePermit.send i (.doc ⟨.stored st.key, st.scanId, st.key⟩)).finish i .endOfStream)
      else none
  | .fail =>
    match st.wait with
    | .get => some (x.finish i .retryable)
    | .permit => none
  | .input | .inputB => none

end DocLayer
