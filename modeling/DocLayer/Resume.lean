import DocLayer.SplitBound
import DocLayer.Execute

/-! # Re-execution on the checkpoint `stopAndCheckpoint` returns

`stopAndCheckpoint()` hands the next segment a checkpoint with one slot per scan and one per
counter of the stopped execution, in the order `addScan` and `getIntState` handed them out.
Re-executing the same plan makes the same calls in the same order, and each call is meant to
get its own slot back: scan `i` resuming at its split key, counter `j` at its live value.

* **`SlotCall`, `PlanCheckpoint.calls`** — the slot calls `execute` makes, replayed on a
  checkpoint, with the slot each call hands out.
* **`stopAndCheckpoint_sameSlots`** — cancellation only writes split keys: the stopped
  checkpoint has the bounds and counters it had.
* **`calls_fresh`** — on a fresh checkpoint the `j`-th `getIntState` appends slot `j`.
* **`calls_resumed`** — on a checkpoint whose counters are all at their start, with a slot for
  each counter call, every `getIntState` hands out the last slot.
* **`resumed_counters_share_last_slot`** — so on the checkpoint `stopAndCheckpoint` returns,
  the `i`-th `addScan` gets scan `i` with bounds `[split_i, end_i)`, but every `getIntState`
  gets the last counter slot, holding the last counter's value: `getIntState` resets and
  returns `states.back()` whichever call it is. -/

namespace DocLayer

/-- **A call `Plan::execute` makes on its checkpoint for a slot.** -/
inductive SlotCall
  | addScan
  | getIntState (defaultValue : Int)
  deriving DecidableEq, Repr

/-- A call for a counter. -/
def SlotCall.isCounter : SlotCall → Bool
  | .getIntState _ => true
  | .addScan => false

namespace PlanCheckpoint

/-- **One slot call**: the checkpoint after it and the slot handed out. -/
def call (cp : PlanCheckpoint) : SlotCall → PlanCheckpoint × Nat
  | .addScan => cp.addScan
  | .getIntState v => cp.getIntState v

/-- **Slot calls made in order**: the checkpoint after them and the slot each one handed out. -/
def calls : PlanCheckpoint → List SlotCall → PlanCheckpoint × List Nat
  | cp, [] => (cp, [])
  | cp, c :: cs =>
    let r := cp.call c
    let r' := r.1.calls cs
    (r'.1, r.2 :: r'.2)

@[simp] theorem calls_nil (cp : PlanCheckpoint) : cp.calls [] = (cp, []) := rfl

@[simp] theorem calls_cons (cp : PlanCheckpoint) (c : SlotCall) (cs : List SlotCall) :
    cp.calls (c :: cs) = (((cp.call c).1.calls cs).1, (cp.call c).2 :: ((cp.call c).1.calls cs).2) := rfl

/-! ### Cancellation writes split keys only -/

/-- **`cp'` has the slots of `cp`**: the same counters, and scans with the same bounds. -/
structure SameSlots (cp cp' : PlanCheckpoint) : Prop where
  states : cp'.states = cp.states
  bounds : cp'.scans.map ScanInfo.bounds = cp.scans.map ScanInfo.bounds

theorem SameSlots.refl (cp : PlanCheckpoint) : SameSlots cp cp := ⟨rfl, rfl⟩

theorem SameSlots.trans {a b c : PlanCheckpoint} (h : SameSlots a b) (h' : SameSlots b c) : SameSlots a c :=
  ⟨h'.states.trans h.states, h'.bounds.trans h.bounds⟩

theorem map_modify_of_comp {α β : Type} (f : α → α) (g : α → β) (hf : ∀ a, g (f a) = g a) :
    ∀ (n : Nat) (l : List α), (l.modify f n).map g = l.map g
  | n, [] => by rw [List.modify_nil]
  | 0, a :: l => by simp [List.modify_zero_cons, hf]
  | n + 1, a :: l => by simp [List.modify_succ_cons, map_modify_of_comp f g hf n l]

theorem SameSlots.of_splitBound {cp cp' : PlanCheckpoint} {w : Int} {k : Key}
    (h : cp.splitBound w k = some cp') : SameSlots cp cp' := by
  unfold PlanCheckpoint.splitBound at h
  split at h
  · cases h
    exact ⟨rfl, map_modify_of_comp (fun si => { si with split := k }) ScanInfo.bounds (fun _ => rfl) _ _⟩
  · cases h

theorem SameSlots.of_splitBoundOne (cp : PlanCheckpoint) (w : Int) (k : Key) :
    SameSlots cp (DocLayer.splitBoundOne cp w k).1 := by
  unfold DocLayer.splitBoundOne
  split
  · exact .of_splitBound ‹_›
  · exact .refl _

theorem SameSlots.of_splitBoundsReverse (cp : PlanCheckpoint) :
    ∀ docs : List ScanReturned, SameSlots cp (DocLayer.splitBoundsReverse cp docs).1
  | [] => .refl _
  | d :: rest => by
    have ih := SameSlots.of_splitBoundsReverse cp rest
    rw [splitBoundsReverse_cons]
    split
    · exact ih
    · exact ih.trans (.of_splitBoundOne _ _ _)

theorem SameSlots.of_cancelOp (env : Env) (cp : PlanCheckpoint) (i : Nat) (a : Actor) :
    SameSlots cp (cancelOp env cp i a).1 := by
  unfold DocLayer.cancelOp
  split <;> (try split) <;> (try split) <;> (try dsimp only) <;> (try split) <;>
    first
    | exact .refl _
    | exact ⟨rfl, rfl⟩
    | exact .of_splitBoundOne _ _ _
    | exact .of_splitBoundsReverse _ _
    | exact (SameSlots.of_splitBoundsReverse _ _).trans (.of_splitBoundsReverse _ _)

theorem SameSlots.of_cancelFrom (env : Env) : ∀ (cp : PlanCheckpoint) (i : Nat) (ops : List Op),
    SameSlots cp (cancelFrom env cp i ops).1
  | _, _, [] => .refl _
  | cp, i, o :: rest => (SameSlots.of_cancelOp env cp i o.actor).trans (SameSlots.of_cancelFrom env _ _ rest)

/-- **`stopAndCheckpoint` leaves the slots as they were**: its handlers write split keys
only. -/
theorem stopAndCheckpoint_sameSlots (env : Env) (cp : PlanCheckpoint) :
    SameSlots cp (cp.stopAndCheckpoint env).stopped :=
  let h := SameSlots.of_cancelFrom env { cp with boundsWanted := true } 0 cp.ops
  ⟨h.states, h.bounds⟩

/-! ### Slot calls on a fresh and on a resumed checkpoint -/

theorem modifyLast_eq_self {α : Type} (f : α → α) (l : List α) (h : ∀ a ∈ l, f a = a) : l.modifyLast f = l := by
  rcases List.eq_nil_or_concat l with rfl | ⟨L, b, rfl⟩
  · rfl
  · rw [List.concat_eq_append, List.modifyLast_append _ _ _ (List.cons_ne_nil _ _)]
    simp [show List.modifyLast f [b] = [f b] from rfl, h b (by simp)]

/-- Counters at their start: `getIntState`'s reset changes nothing. -/
def AtStart (cp : PlanCheckpoint) : Prop := ∀ st ∈ cp.states, st.split = st.begin

theorem getIntState_of_lt {cp : PlanCheckpoint} (hs : cp.AtStart) (hlt : cp.stateAdded < cp.states.length)
    (v : Int) : cp.getIntState v = ({ cp with stateAdded := cp.stateAdded + 1 }, cp.states.length - 1) := by
  simp only [getIntState, Nat.ne_of_lt hlt, if_false]
  rw [modifyLast_eq_self _ _ fun st h => by
    have := hs st h
    cases st
    simp only at this ⊢
    rw [this]]

theorem getIntState_of_eq (cp : PlanCheckpoint) (heq : cp.stateAdded = cp.states.length) (v : Int) :
    (cp.getIntState v).1.states = cp.states ++ [IntState.ofValue v] ∧
      (cp.getIntState v).1.stateAdded = cp.states.length + 1 ∧ (cp.getIntState v).2 = cp.states.length := by
  simp only [getIntState, heq, if_true, List.length_append, List.length_singleton, Nat.add_sub_cancel,
    and_true, true_and]
  rw [List.modifyLast_append _ _ _ (List.cons_ne_nil _ _)]
  rfl

/-- The slots handed to the scan calls, in order. -/
def scanIds (cs : List SlotCall) (ids : List Nat) : List Nat :=
  ((cs.zip ids).filter fun c => c.1 = .addScan).map Prod.snd

/-- The slots handed to the counter calls, in order. -/
def counterIds (cs : List SlotCall) (ids : List Nat) : List Nat :=
  ((cs.zip ids).filter fun c => c.1.isCounter).map Prod.snd

@[simp] theorem scanIds_cons (c : SlotCall) (cs : List SlotCall) (n : Nat) (ids : List Nat) :
    scanIds (c :: cs) (n :: ids) = (if c = .addScan then [n] else []) ++ scanIds cs ids := by
  by_cases hc : c = .addScan <;> simp [scanIds, List.filter_cons, hc]

@[simp] theorem counterIds_cons (c : SlotCall) (cs : List SlotCall) (n : Nat) (ids : List Nat) :
    counterIds (c :: cs) (n :: ids) = (if c.isCounter then [n] else []) ++ counterIds cs ids := by
  cases h : c.isCounter <;> simp [counterIds, List.filter_cons, h]

theorem call_addScan_states (cp : PlanCheckpoint) : (cp.call .addScan).1.states = cp.states := rfl

/-- **The scan calls get `scansAdded`, `scansAdded + 1`, ...**, and read the bounds the
checkpoint had. -/
theorem calls_scans : ∀ (cp : PlanCheckpoint) (cs : List SlotCall),
    scanIds cs (cp.calls cs).2 = List.range' cp.scansAdded (cs.count .addScan) ∧
      ∀ s, (cp.calls cs).1.getBounds s = cp.getBounds s
  | _, [] => ⟨rfl, fun _ => rfl⟩
  | cp, .addScan :: cs => by
    obtain ⟨ih1, ih2⟩ := calls_scans cp.addScan.1 cs
    refine ⟨?_, fun s => (ih2 s).trans (getBounds_addScan cp s)⟩
    simp only [calls_cons, call, scanIds_cons, if_true, ih1, addScan_scansAdded, List.count_cons_self,
      List.range'_succ, addScan_id]
    rfl
  | cp, .getIntState v :: cs => by
    obtain ⟨ih1, ih2⟩ := calls_scans (cp.getIntState v).1 cs
    refine ⟨?_, fun s => (ih2 s).trans (getBounds_of_scans_eq (getIntState_scans cp v) s)⟩
    simp only [calls_cons, call, scanIds_cons, reduceCtorEq, if_false, List.nil_append, ih1,
      getIntState_scansAdded]
    simp [List.count_cons]

/-- **On a fresh checkpoint the counter calls append slots `0, 1, ...`**: each call is one
past the last slot. -/
theorem calls_fresh : ∀ (cp : PlanCheckpoint) (cs : List SlotCall), cp.stateAdded = cp.states.length →
    counterIds cs (cp.calls cs).2 = List.range' cp.states.length (cs.countP SlotCall.isCounter)
  | _, [], _ => rfl
  | cp, .addScan :: cs, h => by
    simpa [call, SlotCall.isCounter] using calls_fresh cp.addScan.1 cs h
  | cp, .getIntState v :: cs, h => by
    obtain ⟨hst, had, hid⟩ := getIntState_of_eq cp h v
    have ih := calls_fresh (cp.getIntState v).1 cs (by rw [had, hst, List.length_append, List.length_singleton])
    simp only [calls_cons, call, counterIds_cons, SlotCall.isCounter, if_true, ih, hst, hid,
      List.length_append, List.length_singleton, List.countP_cons_of_pos, List.range'_succ]
    rfl

/-- **On a checkpoint with its counters at their start and a slot for every counter call,
every counter call hands out the last slot**, and the counters stay as they are. -/
theorem calls_resumed : ∀ (cp : PlanCheckpoint) (cs : List SlotCall), cp.AtStart →
    cp.stateAdded + cs.countP SlotCall.isCounter ≤ cp.states.length →
    (∀ n ∈ counterIds cs (cp.calls cs).2, n = cp.states.length - 1) ∧ (cp.calls cs).1.states = cp.states
  | _, [], _, _ => ⟨fun _ h => (by simp [counterIds] at h), rfl⟩
  | cp, .addScan :: cs, hs, hk => by
    simpa [call, SlotCall.isCounter] using calls_resumed cp.addScan.1 cs hs (by simpa [SlotCall.isCounter] using hk)
  | cp, .getIntState v :: cs, hs, hk => by
    have hk' : cp.stateAdded < cp.states.length := by
      simp only [List.countP_cons_of_pos _ _ (show SlotCall.isCounter (.getIntState v) = true from rfl)] at hk
      omega
    obtain ⟨ih1, ih2⟩ := calls_resumed { cp with stateAdded := cp.stateAdded + 1 } cs hs
      (by simp only [List.countP_cons_of_pos _ _ (show SlotCall.isCounter (.getIntState v) = true from rfl)] at hk
          simp only; omega)
    simp only [calls_cons, call, getIntState_of_lt hs hk', counterIds_cons, SlotCall.isCounter, if_true,
      List.singleton_append, List.mem_cons]
    exact ⟨fun n hn => hn.elim id (ih1 n), ih2⟩

end PlanCheckpoint

open PlanCheckpoint

/-- **Re-executing on the checkpoint `stopAndCheckpoint` returns.** Let the stopped execution
have `k` counters, and let the re-execution make its slot calls in any order with `k` counter
calls. The scan calls get `0, 1, ...` in order, and scan `i` reads `[split_i, end_i)`: its split
key at the stop and the end it had. But every counter call gets the last slot, `k - 1`,
holding the last counter's value at the stop; the other counters are never handed out. -/
theorem resumed_counters_share_last_slot (env : Env) (cp : PlanCheckpoint) (cs : List SlotCall)
    (hk : cs.countP SlotCall.isCounter = cp.states.length) :
    scanIds cs ((cp.stopAndCheckpoint env).next.calls cs).2 = List.range (cs.count .addScan) ∧
    (∀ i < cp.scans.length, ((cp.stopAndCheckpoint env).next.calls cs).1.getBounds i =
      ((cp.stopAndCheckpoint env).stopped.splitOf i, (cp.scans.getD i ScanInfo.default).bounds.2)) ∧
    (∀ n ∈ counterIds cs ((cp.stopAndCheckpoint env).next.calls cs).2, n = cp.states.length - 1) ∧
    ((cp.stopAndCheckpoint env).next.calls cs).1.counter (cp.states.length - 1) =
      cp.counter (cp.states.length - 1) := by
  obtain ⟨hst, hbd⟩ := stopAndCheckpoint_sameSlots env cp
  set S := cp.stopAndCheckpoint env
  have hnext : S.next = S.stopped.rest := rfl
  have hlen : S.next.states.length = cp.states.length := by simp [hnext, rest, hst]
  have hstart : S.next.AtStart := by
    intro st h
    simp only [hnext, rest, List.mem_map] at h
    obtain ⟨_, -, rfl⟩ := h
    rfl
  obtain ⟨hscan, hbounds⟩ := calls_scans S.next cs
  obtain ⟨hcnt, hstates⟩ := calls_resumed S.next cs hstart (by simp [hnext, rest, hk, hst, PlanCheckpoint.new])
  refine ⟨by simpa [hnext, rest, List.range_eq_range'] using hscan, fun i hi => ?_, by rwa [hlen] at hcnt, ?_⟩
  · have hi' : i < S.stopped.scans.length := by
      have := congrArg List.length hbd
      simp only [List.length_map] at this
      omega
    rw [hbounds, hnext]
    simp only [getBounds, rest, List.length_map, Nat.not_le.2 hi', if_false, List.getD_eq_getElem?_getD,
      List.getElem?_map, List.getElem?_eq_getElem hi', Option.map_some', Option.getD_some, splitOf]
    have := congrArg (fun l => l[i]?) hbd
    simp only [List.getElem?_map, List.getElem?_eq_getElem hi', List.getElem?_eq_getElem hi, Option.map_some',
      Option.some.injEq] at this
    simp [this, List.getElem?_eq_getElem hi]
  · rw [PlanCheckpoint.counter, PlanCheckpoint.counter, hstates]
    simp only [hnext, rest, hst, List.getD_eq_getElem?_getD, List.getElem?_map]
    cases cp.states[cp.states.length - 1]? <;> rfl

/-- `SkipPlan(SkipPlan(TableScanPlan, 1), 2)`: two counters, each a `leftToSkip`. -/
def skipSkip : Plan := .skip (.skip .tableScan 1) 2

/-- The slot calls `execute` makes for `skipSkip`: the scan, then the inner and the outer
counter. -/
def skipSkipCalls : List SlotCall := [.addScan, .getIntState 1, .getIntState 2]

/-- The checkpoint after executing `skipSkip` on `new PlanCheckpoint`. -/
def skipSkipCheckpoint : PlanCheckpoint :=
  ((skipSkip.execute emptyEnv (PlanCheckpoint.new 100)).map Prod.fst).getD (PlanCheckpoint.new 0)

theorem resumed_skipSkip_counters_share :
    skipSkipCalls.countP SlotCall.isCounter = skipSkipCheckpoint.states.length ∧
    scanIds skipSkipCalls ((skipSkipCheckpoint.stopAndCheckpoint emptyEnv).next.calls skipSkipCalls).2 =
      List.range (skipSkipCalls.count .addScan) ∧
    (∀ i < skipSkipCheckpoint.scans.length,
      ((skipSkipCheckpoint.stopAndCheckpoint emptyEnv).next.calls skipSkipCalls).1.getBounds i =
        ((skipSkipCheckpoint.stopAndCheckpoint emptyEnv).stopped.splitOf i,
          (skipSkipCheckpoint.scans.getD i ScanInfo.default).bounds.2)) ∧
    (∀ n ∈ counterIds skipSkipCalls ((skipSkipCheckpoint.stopAndCheckpoint emptyEnv).next.calls skipSkipCalls).2,
      n = skipSkipCheckpoint.states.length - 1) ∧
    ((skipSkipCheckpoint.stopAndCheckpoint emptyEnv).next.calls skipSkipCalls).1.counter
        (skipSkipCheckpoint.states.length - 1) =
      skipSkipCheckpoint.counter (skipSkipCheckpoint.states.length - 1) :=
  ⟨by decide, resumed_counters_share_last_slot emptyEnv skipSkipCheckpoint skipSkipCalls (by decide)⟩

end DocLayer
