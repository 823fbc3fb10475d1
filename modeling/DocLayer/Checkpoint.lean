import DocLayer.Actor

/-! # `PlanCheckpoint`: the per-execution context

One execution of a plan runs against a `PlanCheckpoint`. It holds, in the order `addScan` and
`getIntState` hand them out, a slot for every scan (`ScanInfo`: the scan's bounds and the
split key written when it is cancelled) and for every resumable counter (`IntState`); the
registered actors with their output streams, in the order of `addOperation` (a topological
order of the plan); the flag `boundsWanted`; and the document-finished lock.

* **`addScan`, `getBounds`, `splitBound`, `getIntState`, `addOperation`** — the methods the
  actors call, as in the source, `getIntState` returning the slot of the counter it hands out.
* **`FlowControlLock`** — a Flow `FlowLock`: `take` waits until a permit is free. -/

namespace DocLayer

/-- **A scan's slot** (`PlanCheckpoint::ScanInfo`): the range `[begin, end)` the scan is
restricted to, and the split key its cancellation handlers write. -/
structure ScanInfo where
  bounds : Key × Key
  split : Key
  deriving DecidableEq, Repr

/-- Modelled from its documented behaviour: `QLPlan.h`, which declares `ScanInfo`, is not in the source. A
fresh slot has the bounds `getBounds` falls back to, `["", "\xff")`, and the split key
`"\xff"`, which the overview comment of `stopAndCheckpoint` names as its default. -/
def ScanInfo.default : ScanInfo := ⟨([], allKeysEnd), allKeysEnd⟩

/-- **A resumable counter's slot** (`PlanCheckpoint::IntState`): the value the counter starts
from in this execution, and the live value (`split`) the actor counts in. -/
structure IntState where
  begin : Int
  split : Int
  deriving DecidableEq, Repr

/-- The slot `states.emplace_back(v)` creates: both values `v`. -/
def IntState.ofValue (v : Int) : IntState := ⟨v, v⟩

/-- **A Flow `FlowLock`** with `permits` permits, `active` of them taken. -/
structure FlowControlLock where
  permits : Nat
  active : Int
  deriving DecidableEq, Repr

namespace FlowControlLock

/-- `take()` completes when a permit is free (or none is taken at all), taking it. -/
def canTake (l : FlowControlLock) : Bool := l.active + 1 ≤ l.permits || l.active = 0

/-- The lock after `take()`. -/
def take (l : FlowControlLock) : FlowControlLock := { l with active := l.active + 1 }

/-- The lock after `release()`. -/
def release (l : FlowControlLock) : FlowControlLock := { l with active := l.active - 1 }

@[simp] theorem take_active (l : FlowControlLock) : l.take.active = l.active + 1 := rfl
@[simp] theorem release_active (l : FlowControlLock) : l.release.active = l.active - 1 := rfl

end FlowControlLock

/-- **A registered operation**: the actor and the output stream passed to `addOperation`. -/
structure Op where
  actor : Actor
  output : Stream
  deriving Repr

/-- **`PlanCheckpoint`**. `ops` is in registration order; the stream an actor reads is named by
the index of the operation whose output it is. -/
structure PlanCheckpoint where
  scans : List ScanInfo
  states : List IntState
  ops : List Op
  scansAdded : Nat
  stateAdded : Nat
  boundsWanted : Bool
  flowControlLock : FlowControlLock
  deriving Repr

namespace PlanCheckpoint

/-- **`PlanCheckpoint()`**: no slots, no operations, a lock of `FLOW_CONTROL_LOCK_PERMITS`
permits. -/
def new (flowControlLockPermits : Nat) : PlanCheckpoint :=
  ⟨[], [], [], 0, 0, false, ⟨flowControlLockPermits, 0⟩⟩

/-- **`addScan()`**: the next scan id, growing `scans` with fresh slots when it is new. -/
def addScan (cp : PlanCheckpoint) : PlanCheckpoint × Nat :=
  let s := cp.scansAdded
  ({ cp with
      scansAdded := s + 1
      scans := if cp.scans.length ≤ s then
          cp.scans ++ List.replicate (s + 1 - cp.scans.length) ScanInfo.default
        else cp.scans }, s)

/-- **`getBounds(whichScan)`**: the scan's bounds, or `["", "\xff")` for a scan with no slot. -/
def getBounds (cp : PlanCheckpoint) (whichScan : Nat) : Key × Key :=
  if cp.scans.length ≤ whichScan then ([], allKeysEnd)
  else (cp.scans.getD whichScan ScanInfo.default).bounds

/-- **`splitBound(whichScan) = key`**, behind the `ASSERT(whichScan >= 0 && whichScan <
scans.size())`; `none` when the assertion fails. -/
def splitBound (cp : PlanCheckpoint) (whichScan : Int) (key : Key) : Option PlanCheckpoint :=
  if 0 ≤ whichScan ∧ whichScan < cp.scans.length then
    some { cp with scans := cp.scans.modify (fun si => { si with split := key }) whichScan.toNat }
  else none

/-- **`getIntState(defaultValue)`**: appends a slot when the call is one past the last slot,
resets the LAST slot's live value to its start, and hands out the last slot — as the source
does, whichever call this is. Returns the checkpoint and the slot handed out. -/
def getIntState (cp : PlanCheckpoint) (defaultValue : Int) : PlanCheckpoint × Nat :=
  let s := cp.stateAdded
  let states := if s = cp.states.length then cp.states ++ [IntState.ofValue defaultValue]
    else cp.states
  ({ cp with
      stateAdded := s + 1
      states := states.modifyLast fun st => { st with split := st.begin } },
    states.length - 1)

/-- **`addOperation(actors, output)`**: register an actor and its output stream. -/
def addOperation (cp : PlanCheckpoint) (actor : Actor) (output : Stream) : PlanCheckpoint :=
  { cp with ops := cp.ops ++ [⟨actor, output⟩] }

/-- The live value of a counter slot. -/
def counter (cp : PlanCheckpoint) (slot : Nat) : Int := (cp.states.getD slot ⟨0, 0⟩).split

/-- Write the live value of a counter slot. -/
def setCounter (cp : PlanCheckpoint) (slot : Nat) (v : Int) : PlanCheckpoint :=
  { cp with states := cp.states.modify (fun st => { st with split := v }) slot }

end PlanCheckpoint

end DocLayer
