import DocLayer.Operators

/-! # Plans and `Plan::execute`

A plan is a tree of operators. `execute` follows the source's contract: it calls `execute` on
the subplans first, synchronously and left to right (so `addScan` hands out the same ids on
every execution), then starts the operator's actor and registers it with `addOperation`. So
`ops` comes out in a topological order, and each actor's input is an operation registered
before it.

An actor is registered in the state of its first wait on something outside the plan or on an
input: what its body does before that wait without waiting (reading its bounds, taking its
counter slot) is done here. A wait on an input that is already ready is not run here: in
Flow, `doUnion` over an input that has already ended (an `EmptyPlan`, a lookup outside its
bounds) handles that `end_of_stream` before `execute` returns; here the union is registered
with both sides open, and handling it is a later move: the source's runs are the model's
runs that take those steps first.

* **`Plan`** — the operators of the streaming engine, the index insert, and `EmptyPlan`.
* **`getDescendants`** — the keys of a table in `[begin, end)`, in order.
* **`Plan.execute`** — the operations a plan registers; `none` when `strinc` of a bound
  asserts. It returns the index of the operation whose output is the plan's output. -/

namespace DocLayer

/-- **The plan operators.** Key-valued fields hold encoded key parts. -/
inductive Plan
  | tableScan
  /-- `PrimaryKeyLookupPlan(begin, end)`: one primary key when `begin == end`, else a range. -/
  | primaryKeyLookup (begin end_ : Option Key)
  | indexScan (index : IndexInfo) (begin end_ : Option Key)
  | filter (source : Plan) (filter : Predicate)
  | projection (subPlan : Plan)
  | union (plan1 plan2 : Plan)
  | skip (subPlan : Plan) (skip : Int)
  | update (subPlan : Plan) (limit : Int) (upsert : Bool)
  | flushChanges (subPlan : Plan)
  | projectAndUpdate (subPlan : Plan) (upsert projectNew : Bool)
  | buildIndex (scan : Plan)
  | indexInsert (keySpec : List Key) (name : Nat)
  /-- `InsertPlan(docs)`: inserts the documents `docs`, named by the handles they get. -/
  | insert (docs : List DocRef)
  | empty
  deriving Repr

/-- **`getDescendants(begin, end)`**: the keys of `table` in `[begin, end)`, in key order. -/
def getDescendants (table : List Key) (begin end_ : Key) : List Key :=
  table.filter fun k => begin ≤ k ∧ k < end_

/-- **A range read's bounds, as the range scans compute them**: the plan's begin (or `"\x00"`)
raised to the scan's bound, and the plan's end (`strinc` of it, or `"\xff"`) lowered to the
scan's bound but not below the begin. `none` when `strinc` asserts. -/
def scanRange (begin end_ : Option Key) (bounds : Key × Key) : Option (Key × Key) := do
  let lo := max (begin.getD allKeysBegin) bounds.1
  let hi ← match end_ with
    | some e => strinc e
    | none => pure allKeysEnd
  pure (lo, max lo (min hi bounds.2))

/-- Register operation `actor` with a fresh output stream; return its index. -/
def PlanCheckpoint.register (cp : PlanCheckpoint) (actor : Actor) : PlanCheckpoint × Nat :=
  (cp.addOperation actor .empty, cp.ops.length)

/-- Register an operation that ended its output with `end_of_stream` before its first wait. -/
def PlanCheckpoint.registerEnded (cp : PlanCheckpoint) : PlanCheckpoint × Nat :=
  (cp.addOperation .finished (Stream.empty.send (.error .endOfStream)), cp.ops.length)

/-- **`Plan::execute`** on checkpoint `cp`: the checkpoint with the plan's operations registered,
and the index of the plan's output operation. Each actor is registered at its first wait; a
union is registered with both sides open, before it reads either input. -/
def Plan.execute (env : Env) : Plan → PlanCheckpoint → Option (PlanCheckpoint × Nat)
  | .tableScan, cp => do
    let (cp, scanID) := cp.addScan
    let bounds := cp.getBounds scanID
    let beginKey := max allKeysBegin bounds.1
    let endKey := max beginKey (min allKeysEnd bounds.2)
    pure (cp.register (.pkScan ⟨scanID, getDescendants env.table beginKey endKey, [], [], .nextKey⟩))
  | .primaryKeyLookup begin end_, cp => do
    let (cp, scanID) := cp.addScan
    match begin, end_ with
    | some b, some e =>
      if b = e then
        let bounds := cp.getBounds scanID
        if bounds.1 ≤ b ∧ b < bounds.2 then
          pure (cp.register (.singlePKLookup ⟨scanID, b, .get⟩))
        else pure (cp.registerEnded)
      else
        let (lo, hi) ← scanRange begin end_ (cp.getBounds scanID)
        pure (cp.register (.pkScan ⟨scanID, getDescendants env.table lo hi, [], [], .nextKey⟩))
    | _, _ =>
      let (lo, hi) ← scanRange begin end_ (cp.getBounds scanID)
      pure (cp.register (.pkScan ⟨scanID, getDescendants env.table lo hi, [], [], .nextKey⟩))
  | .indexScan index begin end_, cp => do
    let (cp, scanID) := cp.addScan
    let (lowerBound, upperBound) ← scanRange begin end_ (cp.getBounds scanID)
    let (cp, p) := cp.register
      (.docInfo ⟨scanID, getDescendants (env.indexEntries index) lowerBound upperBound, [], .nextKey⟩)
    if begin.isSome ∧ begin = end_ ∧ index.size = 1 then pure (cp, p)
    else pure (cp.register (.headQueue (.dedup index upperBound) ⟨p, [], false⟩))
  | .filter source predicate, cp => do
    let (cp, input) ← Plan.execute env source cp
    pure (cp.register (.headQueue (.filter predicate) ⟨input, [], false⟩))
  | .projection subPlan, cp => do
    let (cp, input) ← Plan.execute env subPlan cp
    pure (cp.register (.headQueue .project ⟨input, [], false⟩))
  | .flushChanges subPlan, cp => do
    let (cp, input) ← Plan.execute env subPlan cp
    pure (cp.register (.headQueue .flushChanges ⟨input, [], false⟩))
  | .union plan1 plan2, cp => do
    let (cp, a) ← Plan.execute env plan1 cp
    let (cp, b) ← Plan.execute env plan2 cp
    pure (cp.register (.union ⟨a, b, true, true⟩))
  | .skip subPlan count, cp => do
    let (cp, input) ← Plan.execute env subPlan cp
    let (cp, slot) := cp.getIntState count
    pure (cp.register (.skip ⟨input, slot⟩))
  | .update subPlan limit upsert, cp => do
    let (cp, input) ← Plan.execute env subPlan cp
    let (cp, slot) := cp.getIntState 0
    pure (cp.register (.update ⟨input, limit, upsert, slot, [], .main true⟩))
  | .projectAndUpdate subPlan upsert projectNew, cp => do
    let (cp, input) ← Plan.execute env subPlan cp
    pure (cp.register (.projectAndUpdate ⟨input, upsert, projectNew, none, false, .input⟩))
  | .buildIndex scan, cp => do
    let (cp, input) ← Plan.execute env scan cp
    pure (cp.register (.buildIndex ⟨input, [], false, !(cp.getBounds 0).1.isEmpty⟩))
  | .indexInsert keySpec name, cp => pure (cp.register (.indexInsert ⟨keySpec, name, .permit⟩))
  | .insert docs, cp => pure (cp.register (.insert ⟨docs, [], .metadata⟩))
  | .empty, cp => pure (cp.registerEnded)

end DocLayer
