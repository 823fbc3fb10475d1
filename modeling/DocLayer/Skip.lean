import DocLayer.Stages
import DocLayer.Update

/-! # What `doSkip` forwards

`SkipPlan::execute` registers `doSkip` with its count in a checkpoint counter
(`getIntState(skip)`): while `leftToSkip != 0` it drops a document, gives its permit back and
counts down; then it forwards every document; the end of its input, or its error, ends the output.
Counting down from a negative count never reaches zero, so then every document is dropped.

* **`skipKept`** — the documents `doSkip` owes: those after the first `n`, none when `n` is
  negative. `skipDropped` counts the documents dropped among the first `k` read.
* **`skipRun`** — `doSkip` behind a producer that has sent documents, then possibly its end.
* **`SkipPhase`** — where a run is: reading, with the counter, the output and the lock as the
  documents read so far fix them, or returned. `SkipPhase.move` is the step lemma,
  `SkipPhase.reaches` the run lemma.
* **`doSkip_forwards_after_skip`** — every run forwards a prefix of the documents owed and of the
  end, all of them once the output has ended, and the lock gets back every dropped document's
  permit. -/

namespace DocLayer

/-- **The documents `doSkip` forwards out of `ds`, its counter starting at `n`**: those after the
first `n`; none when `n` is negative, since counting down from it never reaches zero. -/
def skipKept (n : Int) (ds : List ScanReturned) : List ScanReturned :=
  if 0 ≤ n then ds.drop n.toNat else []

example : skipKept 1 [⟨.stored [1], 0, [1]⟩, ⟨.stored [2], 0, [2]⟩] = [⟨.stored [2], 0, [2]⟩] := rfl

/-- **How many of the first `k` documents `doSkip` drops**, its counter starting at `n`. -/
def skipDropped (n : Int) (k : Nat) : Nat := if 0 ≤ n then min k n.toNat else k

/-- The stream of a producer that has sent `ds`, then possibly ended with `ending`. -/
def skipInput (ds : List ScanReturned) (ending : Option ErrorCode) : List Msg :=
  ds.map .doc ++ (ending.map .error).toList

/-- **`doSkip` as `SkipPlan::execute` starts it, behind a producer that has sent `ds` and
possibly its end**: on checkpoint `cp`, its counter in slot `0` at `n`. -/
def skipRun (cp : PlanCheckpoint) (ds : List ScanReturned) (ending : Option ErrorCode) (n : Int) : Exec :=
  stageExec { cp with states := [IntState.ofValue n] } (.skip ⟨0, 0⟩) (skipInput ds ending)

section Count

variable {n : Int} {k : Nat}

theorem skipDropped_le : skipDropped n k ≤ k := by
  unfold skipDropped
  split <;> omega

/-- While the counter is not zero, every document read so far was dropped, and so is the next. -/
theorem skipDropped_succ_of_ne (h : n - skipDropped n k ≠ 0) :
    skipDropped n k = k ∧ skipDropped n (k + 1) = skipDropped n k + 1 := by
  by_cases hn : 0 ≤ n
  · simp only [skipDropped, hn, if_true] at h ⊢
    omega
  · simp [skipDropped, hn]

/-- Once the counter is zero, the next document is forwarded. -/
theorem skipDropped_succ_of_eq (h : n - skipDropped n k = 0) :
    skipDropped n (k + 1) = skipDropped n k := by
  by_cases hn : 0 ≤ n <;> simp [skipDropped, hn] at h ⊢ <;> omega

theorem skipKept_eq (n : Int) (ds : List ScanReturned) :
    skipKept n ds = ds.drop (skipDropped n ds.length) := by
  unfold skipKept skipDropped
  split
  · rcases Nat.le_total ds.length n.toNat with h | h
    · simp [List.drop_eq_nil_of_le, h]
    · simp [Nat.min_eq_right h]
  · simp

end Count

/-- **Where a run of `skipRun cp ds ending n` is.** The consumer has taken `t` of the output;
every dropped document's permit is back, and each forwarded one's comes back as the consumer
takes it. -/
inductive SkipPhase (cp : PlanCheckpoint) (ds : List ScanReturned) (ending : Option ErrorCode) (n : Int) :
    Exec → Prop
  /-- Reading: `k` documents read, the first `skipDropped n k` dropped and counted down, the
  rest forwarded. -/
  | reading {x : Exec} {k t : Nat} (hk : k ≤ ds.length)
      (ops : x.cp.ops = [⟨.finished, ⟨skipInput ds ending, k⟩⟩,
        ⟨.skip ⟨0, 0⟩, ⟨((ds.take k).drop (skipDropped n k)).map .doc, t⟩⟩])
      (ht : t ≤ ((ds.take k).drop (skipDropped n k)).length)
      (states : x.cp.states = [⟨n, n - skipDropped n k⟩])
      (lock : cp.flowControlLock.active = x.cp.flowControlLock.active + (skipDropped n k + t)) :
      SkipPhase cp ds ending n x
  /-- Returned after passing the end of the input on. -/
  | ended {x : Exec} {e : ErrorCode} {t : Nat} (he : ending = some e)
      (ops : x.cp.ops = [⟨.finished, ⟨skipInput ds ending, ds.length + 1⟩⟩,
        ⟨.finished, ⟨(skipKept n ds).map .doc ++ [.error e], t⟩⟩])
      (ht : t ≤ (skipKept n ds).length + 1)
      (lock : cp.flowControlLock.active = x.cp.flowControlLock.active +
        (skipDropped n ds.length + (docsOf (((skipKept n ds).map Msg.doc ++ [Msg.error e]).take t)).length)) :
      SkipPhase cp ds ending n x

theorem skipInput_getElem?_of_lt {ds : List ScanReturned} {ending : Option ErrorCode} {k : Nat}
    (h : k < ds.length) : (skipInput ds ending)[k]? = some (.doc ds[k]) := by
  simp [skipInput, List.getElem?_append_left, h]

theorem skipInput_getElem?_length (ds : List ScanReturned) (ending : Option ErrorCode) :
    (skipInput ds ending)[ds.length]? = ending.map .error := by
  cases ending <;> simp [skipInput, List.getElem?_append_right]

theorem docsOf_take_map_doc (ds : List ScanReturned) (t : Nat) :
    docsOf ((ds.map Msg.doc).take t) = ds.take t := by
  rw [← List.map_take, docsOf_map_doc]

variable {env : Env} {x y : Exec} {cp : PlanCheckpoint} {ds : List ScanReturned}
  {ending : Option ErrorCode} {n : Int}

theorem step_eq_doSkip {o out : Stream} {st : Skip}
    (hops : x.cp.ops = [⟨.finished, o⟩, ⟨.skip st, out⟩]) (i : Nat) (ev : Event) :
    x.step env i ev = if i = 1 then doSkip x 1 st ev else none := by
  rcases i with _ | _ | i <;> simp [Exec.step, Exec.op?, hops]

/-- **Reading the next message** keeps `doSkip` in its phases: a document is dropped while the
counter is not zero, forwarded once it is; the end of the input is passed on. -/
theorem SkipPhase.reading_input {k t : Nat} (hk : k ≤ ds.length)
    (ops : x.cp.ops = [⟨.finished, ⟨skipInput ds ending, k⟩⟩,
      ⟨.skip ⟨0, 0⟩, ⟨((ds.take k).drop (skipDropped n k)).map .doc, t⟩⟩])
    (ht : t ≤ ((ds.take k).drop (skipDropped n k)).length)
    (states : x.cp.states = [⟨n, n - skipDropped n k⟩])
    (lock : cp.flowControlLock.active = x.cp.flowControlLock.active + (skipDropped n k + t))
    (h : doSkip x 1 ⟨0, 0⟩ .input = some y) : SkipPhase cp ds ending n y := by
  have hpeek : x.peek 0 = (skipInput ds ending)[k]? := by simp [Exec.peek, Exec.op?, ops, Stream.peek]
  have hcount : x.counter 0 = n - skipDropped n k := by
    simp [Exec.counter, PlanCheckpoint.counter, states]
  rcases Nat.lt_or_ge k ds.length with hlt | hge
  · simp only [doSkip, hpeek, skipInput_getElem?_of_lt hlt, hcount] at h
    split at h <;> simp only [Option.some.injEq] at h <;> subst h
    · -- the counter is not zero: drop the document, give its permit back, count down
      rename_i hne
      obtain ⟨hd, hd1⟩ := skipDropped_succ_of_ne hne
      have hnil : (ds.take k).drop (skipDropped n k) = [] := by simp [hd]
      have hnil' : (ds.take (k + 1)).drop (skipDropped n (k + 1)) = [] := by simp [hd1, hd]
      rw [hnil] at ops ht
      obtain rfl : t = 0 := Nat.le_zero.1 ht
      refine .reading (k := k + 1) (t := 0) hlt ?_ (by simp) ?_ ?_
      · simp [Exec.setCounter, Exec.releasePermit, Exec.popInput, PlanCheckpoint.setCounter, ops,
          Stream.pop, hnil']
      · have hv : n - ↑(skipDropped n k) - 1 = n - ↑(skipDropped n (k + 1)) := by
          rw [hd1]
          omega
        simp [Exec.setCounter, Exec.releasePermit, Exec.popInput, PlanCheckpoint.setCounter, states, hv]
      · simp only [Exec.setCounter, Exec.releasePermit, Exec.popInput, PlanCheckpoint.setCounter,
          FlowControlLock.release_active, hd1]
        omega
    · -- the counter is zero: forward the document
      rename_i heq
      have hd1 := skipDropped_succ_of_eq (not_not.1 heq)
      have hkept : (ds.take (k + 1)).drop (skipDropped n (k + 1)) =
          (ds.take k).drop (skipDropped n k) ++ [ds[k]] := by
        rw [hd1, drop_take_succ skipDropped_le hlt]
      refine .reading (k := k + 1) (t := t) hlt ?_ ?_ ?_ ?_
      · simp [Exec.send, Exec.popInput, ops, Stream.pop, Stream.send, hkept]
      · rw [hkept, List.length_append]
        omega
      · simp [Exec.send, Exec.popInput, states, hd1]
      · simpa [Exec.send, Exec.popInput, hd1] using lock
  · -- the end of the input, passed on
    obtain rfl : k = ds.length := le_antisymm hk hge
    simp only [doSkip, hpeek, skipInput_getElem?_length] at h
    cases ending with
    | none => simp at h
    | some e =>
      simp only [Option.map_some', Option.some.injEq] at h
      subst h
      have hout : (ds.take ds.length).drop (skipDropped n ds.length) = skipKept n ds := by
        rw [List.take_length, skipKept_eq]
      rw [hout] at ops ht
      refine .ended rfl ?_ (Nat.le_succ_of_le ht) ?_
      · simp [Exec.send, Exec.setActor, Exec.popInput, ops, Stream.pop, Stream.send]
      · have hdocs : (docsOf (((skipKept n ds).map Msg.doc ++ [Msg.error e]).take t)).length = t := by
          rw [List.take_append_of_le_length (by simpa using ht), docsOf_take_map_doc, List.length_take,
            Nat.min_eq_left ht]
        simpa [Exec.send, Exec.setActor, Exec.popInput, hdocs] using lock

/-- **Every move keeps a run of `skipRun` in its phases**: the consumer takes a message of the
output, giving a document's permit back, or `doSkip` reads its next one. -/
theorem SkipPhase.move (hx : SkipPhase cp ds ending n x) {c : Choice} (h : x.move env 1 c = some y) :
    SkipPhase cp ds ending n y := by
  cases hx with
  | reading hk ops ht states lock =>
    cases c with
    | consume =>
      obtain ⟨hlt, ops', hact⟩ := consume_stage ops h
      obtain ⟨-, hs, -, -⟩ := consume_ops ops h
      simp only [docsOf_take_map_doc, List.length_take, List.length_map] at hact hlt
      refine .reading hk ops' hlt (hs.trans states) ?_
      rw [Nat.min_eq_left ht, Nat.min_eq_left hlt] at hact
      omega
    | step i ev =>
      rw [Exec.move, step_eq_doSkip ops] at h
      split at h
      · cases ev
        case input => exact .reading_input hk ops ht states lock h
        all_goals simp [doSkip] at h
      · cases h
  | ended he ops ht lock =>
    cases c with
    | consume =>
      obtain ⟨hlt, ops', hact⟩ := consume_stage ops h
      exact .ended he ops' (by simp at hlt; omega) (by omega)
    | step i ev => simp [Exec.move, step_eq_none ops] at h

/-- **Every run from a phase stays in the phases.** -/
theorem SkipPhase.reaches (hx : SkipPhase cp ds ending n x) (hr : Exec.Reaches env 1 x y) :
    SkipPhase cp ds ending n y := by
  induction hr with
  | refl => exact hx
  | tail _ hm ih =>
    obtain ⟨c, hc⟩ := hm
    exact ih.move hc

/-- **`doSkip` starts reading**, nothing read, dropped or sent. -/
theorem skipPhase_start (cp : PlanCheckpoint) (ds : List ScanReturned) (ending : Option ErrorCode)
    (n : Int) : SkipPhase cp ds ending n (skipRun cp ds ending n) :=
  .reading (k := 0) (t := 0) (Nat.zero_le _) (by simp [skipRun, stageExec, Stream.empty])
    (Nat.zero_le _) (by simp [skipRun, stageExec, IntState.ofValue, skipDropped]) (by simp [skipRun, stageExec, skipDropped])

/-- What has been forwarded after `k` documents is a prefix of what is owed for all of them. -/
theorem skipKept_extends_take (n : Int) (k : Nat) :
    (ds.take k).drop (skipDropped n k) <+: skipKept n ds := by
  unfold skipKept skipDropped
  split
  · rcases Nat.le_total k n.toNat with h | h
    · rw [Nat.min_eq_left h, List.drop_eq_nil_of_le (by simp)]
      exact List.nil_prefix
    · rw [Nat.min_eq_right h, List.drop_take]
      exact List.take_prefix _ _
  · simp

/-- **`doSkip` forwards what follows the first `n` documents.** In every run behind a producer
that has sent `ds` and possibly its end, `doSkip` has sent a prefix of the documents after the
first `n` (none when `n` is negative), then of the end, and exactly that once its output has
ended; of the `r` messages it has read, every document dropped has its permit back, the
forwarded ones' coming back as the consumer takes them. -/
theorem doSkip_forwards_after_skip (hr : Exec.Reaches env 1 (skipRun cp ds ending n) y) :
    ∃ out r t, y.sentAt 1 = some out ∧ y.takenAt 0 = some r ∧ y.takenAt 1 = some t ∧
      out <+: (skipKept n ds).map .doc ++ (ending.map .error).toList ∧
      (y.outputEnded 1 = true → out = (skipKept n ds).map .doc ++ (ending.map .error).toList) ∧
      cp.flowControlLock.active =
        y.cp.flowControlLock.active + (skipDropped n (min r ds.length) + (docsOf (out.take t)).length) := by
  cases (skipPhase_start cp ds ending n).reaches hr with
  | @reading k t hk ops ht states lock =>
    -- still reading: documents only, so the output has not ended
    refine ⟨_, k, t, by simp [Exec.sentAt, Exec.op?, ops], by simp [Exec.takenAt, Exec.op?, ops],
      by simp [Exec.takenAt, Exec.op?, ops], ((skipKept_extends_take n k).map _).trans (List.prefix_append _ _),
      fun hend => ?_, ?_⟩
    · simp only [Exec.outputEnded, Exec.op?, ops, Stream.ended, List.getElem?_cons_succ,
        List.getElem?_cons_zero, Option.map_some', Option.getD_some, List.any_eq_true] at hend
      obtain ⟨m, hm, he⟩ := hend
      obtain ⟨d, -, rfl⟩ := List.mem_map.1 hm
      simp at he
    · rw [Nat.min_eq_left hk, docsOf_take_map_doc, List.length_take, Nat.min_eq_left ht]
      exact lock
  | @ended e t he ops ht lock =>
    subst he
    refine ⟨_, ds.length + 1, t, by simp [Exec.sentAt, Exec.op?, ops], by simp [Exec.takenAt, Exec.op?, ops],
      by simp [Exec.takenAt, Exec.op?, ops], List.prefix_refl _, fun _ => rfl, ?_⟩
    simpa using lock

/-- Two documents behind a count of `-1`: `doSkip` drops both, giving both permits back, and
passes only `end_of_stream` on. -/
theorem doSkip_negative_drops_all :
    ∃ y, Exec.run emptyEnv 1 (skipRun (PlanCheckpoint.new 10) [⟨.stored [1], 0, [1]⟩, ⟨.stored [2], 0, [2]⟩]
        (some .endOfStream) (-1)) [.step 1 .input, .step 1 .input, .step 1 .input, .consume] = some y ∧
      ∃ out r t, y.sentAt 1 = some out ∧ y.takenAt 0 = some r ∧ y.takenAt 1 = some t ∧
        out <+: (skipKept (-1) [⟨.stored [1], 0, [1]⟩, ⟨.stored [2], 0, [2]⟩]).map .doc ++
          ((some ErrorCode.endOfStream).map .error).toList ∧
        (y.outputEnded 1 = true → out = (skipKept (-1) [⟨.stored [1], 0, [1]⟩, ⟨.stored [2], 0, [2]⟩]).map .doc ++
          ((some ErrorCode.endOfStream).map .error).toList) ∧
        (PlanCheckpoint.new 10).flowControlLock.active = y.cp.flowControlLock.active +
          (skipDropped (-1) (min r 2) + (docsOf (out.take t)).length) := by
  have h := show Exec.run emptyEnv 1 (skipRun (PlanCheckpoint.new 10)
      [⟨.stored [1], 0, [1]⟩, ⟨.stored [2], 0, [2]⟩] (some .endOfStream) (-1))
      [.step 1 .input, .step 1 .input, .step 1 .input, .consume] = some _ from rfl
  exact ⟨_, h, doSkip_forwards_after_skip (Exec.Reaches.of_run h)⟩

end DocLayer
