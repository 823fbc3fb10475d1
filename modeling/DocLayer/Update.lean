import DocLayer.SplitBound

/-! # What `doUpdate` updates

`doUpdate` starts a document's update when it receives it, adds one to its counter, and
only then compares the counter with the limit: so it always updates the first document it
receives, whatever the limit. Over a stream of `n` documents and from a counter at `0`, a
completed run updates and emits exactly the first `min n (max limit 1)` documents, in order,
and upserts exactly when the stream is empty and an upsert is configured.

* **`updateRun`** — `doUpdate` reading a stream that holds the documents `ds` and then
  `end_of_stream`, its counter at `0`.
* **`UpdatePhase`** — where every run from `updateRun` can be: reading or draining after
  `r` documents with `s` of them sent, upserting, or done; `UpdatePhase.move` is the step
  lemma, `updatePhase_run` the run lemma.
* **`doUpdate_updates_first`** — every completed run updates and emits exactly the first
  `updateCount` documents, and upserts iff `ds = []` and an upsert is configured.
* **`updateLimitZero_updates_one`** — with limit `0` one document is still updated. -/

namespace DocLayer

/-- The messages of a stream that delivers `ds` and then ends. -/
def streamOf (ds : List ScanReturned) : List Msg := ds.map .doc ++ [.error .endOfStream]

/-- **`doUpdate` reading a stream that delivers `ds` and then ends**, its counter in slot `0`
at `0`: operation `0` is the input, operation `1` the update. -/
def updateRun (ds : List ScanReturned) (limit : Int) (upsert : Bool) : Exec :=
  ⟨{ PlanCheckpoint.new 1 with
      ops := [⟨.finished, ⟨streamOf ds, 0⟩⟩, ⟨.update ⟨0, limit, upsert, 0, [], .main true⟩, .empty⟩]
      states := [IntState.ofValue 0] }, [], 0⟩

/-- The updates of documents `ds`, in order. -/
def updatesOf (ds : List ScanReturned) : List Effect := ds.map fun d => .update d.doc

/-- **How many documents `doUpdate` updates** out of `ds`: all of them up to the limit, and
at least one. -/
def updateCount (ds : List ScanReturned) (limit : Int) : Nat := min ds.length (max limit 1).toNat

/-- The document `doUpdate` upserts in a run from `updateRun`. -/
def upsertedDoc : ScanReturned := ⟨.inserted 0, -1, []⟩

theorem streamOf_getElem?_of_lt {ds : List ScanReturned} {r : Nat} (h : r < ds.length) :
    (streamOf ds)[r]? = some (.doc ds[r]) := by
  simp [streamOf, List.getElem?_append_left, h]

theorem streamOf_getElem?_length (ds : List ScanReturned) :
    (streamOf ds)[ds.length]? = some (.error .endOfStream) := by
  simp [streamOf, List.getElem?_append_right]

theorem drop_take_succ {ds : List ScanReturned} {r s : Nat} (hs : s ≤ r) (hr : r < ds.length) :
    (ds.take (r + 1)).drop s = (ds.take r).drop s ++ [ds[r]] := by
  rw [List.take_succ, List.getElem?_eq_getElem hr, List.drop_append_of_le_length (by simp; omega)]
  rfl

theorem drop_take_eq_cons {ds : List ScanReturned} {r s : Nat} (hs : s < r) (hr : r ≤ ds.length) :
    (ds.take r).drop s = ds[s] :: (ds.take r).drop (s + 1) := by
  rw [List.drop_eq_getElem_cons (by simp; omega), List.getElem_take]

/-! ## The phases of a run -/

/-- **Where `doUpdate`'s loops are** after reading `r` documents and sending `s` of them, the
input taken up to `k`, reading (`b`) or draining. Reading, nothing past the `r` documents is
taken and the counter is below the limit (or nothing was read); draining, a document is
pending and the loop ended at `end_of_stream` or at the limit. -/
def MainStage (n : Nat) (limit : Int) (r s k : Nat) (b : Bool) : Prop :=
  s ≤ r ∧ r ≤ n ∧ (r : Int) ≤ max limit 1 ∧
    if b then k = r ∧ (r = 0 ∨ (r : Int) < limit)
    else s < r ∧ (k = r + 1 ∧ r = n ∨ k = r ∧ limit ≤ r)

/-- **Where a run of `updateRun ds limit upsert` can be.** The input stream is operation `0`,
`doUpdate` operation `1`, and the consumer may have taken any part `t` of its output. -/
inductive UpdatePhase (ds : List ScanReturned) (limit : Int) (upsert : Bool) : Exec → Prop
  /-- In the `loop choose` or the drain loop: the first `r` documents read and updated, the
  first `s` of them sent (`MainStage`). -/
  | main {x : Exec} {r s k t : Nat} {b : Bool}
      (ops : x.cp.ops = [⟨.finished, ⟨streamOf ds, k⟩⟩,
        ⟨.update ⟨0, limit, upsert, 0, (ds.take r).drop s, .main b⟩, ⟨(ds.take s).map .doc, t⟩⟩])
      (states : x.cp.states = [⟨0, r⟩]) (effects : x.effects = updatesOf (ds.take r))
      (inserted : x.inserted = 0) (stage : MainStage ds.length limit r s k b) :
      UpdatePhase ds limit upsert x
  /-- Waiting for the upsert's permit or for the insert, after an empty stream. -/
  | upsert {x : Exec} {t : Nat} {w : UpdateWait} (hup : upsert = true) (hds : ds = [])
      (ops : x.cp.ops = [⟨.finished, ⟨streamOf ds, 1⟩⟩, ⟨.update ⟨0, limit, upsert, 0, [], w⟩, ⟨[], t⟩⟩])
      (effects : x.effects = []) (inserted : x.inserted = 0)
      (wait : w = .upsertPermit ∨ w = .upsertInsert) : UpdatePhase ds limit upsert x
  /-- Done without an upsert: the first `updateCount` documents sent, then `end_of_stream`. -/
  | done {x : Exec} {o : Stream} {t : Nat}
      (ops : x.cp.ops = [⟨.finished, o⟩, ⟨.finished,
        ⟨(ds.take (updateCount ds limit)).map .doc ++ [.error .endOfStream], t⟩⟩])
      (effects : x.effects = updatesOf (ds.take (updateCount ds limit)))
      (no_upsert : ¬(upsert = true ∧ ds = [])) : UpdatePhase ds limit upsert x
  /-- Done after the upsert: the upserted document sent, then `end_of_stream`. -/
  | upserted {x : Exec} {o : Stream} {t : Nat} (hup : upsert = true) (hds : ds = [])
      (ops : x.cp.ops = [⟨.finished, o⟩, ⟨.finished, ⟨[.doc upsertedDoc, .error .endOfStream], t⟩⟩])
      (effects : x.effects = [.insert (.inserted 0)]) : UpdatePhase ds limit upsert x

/-! ## One move -/

variable {env : Env} {x y : Exec}

/-- With its input finished, only `doUpdate` can step. -/
theorem step_eq_doUpdate {o out : Stream} {st : Update}
    (hops : x.cp.ops = [⟨.finished, o⟩, ⟨.update st, out⟩]) (i : Nat) (ev : Event) :
    x.step env i ev = if i = 1 then doUpdate x 1 st ev else none := by
  rcases i with _ | _ | i <;> simp [Exec.step, Exec.op?, hops]

/-- With both operations finished, nothing can step. -/
theorem step_eq_none {o out : Stream} (hops : x.cp.ops = [⟨.finished, o⟩, ⟨.finished, out⟩])
    (i : Nat) (ev : Event) : x.step env i ev = none := by
  rcases i with _ | _ | i <;> simp [Exec.step, Exec.op?, hops]

/-- The consumer takes one message of `doUpdate`'s output and changes nothing else the phases
describe. -/
theorem consume_ops {o : Op} {a : Actor} {l : List Msg} {t : Nat}
    (hops : x.cp.ops = [o, ⟨a, ⟨l, t⟩⟩]) (h : x.consume 1 = some y) :
    y.cp.ops = [o, ⟨a, ⟨l, t + 1⟩⟩] ∧ y.cp.states = x.cp.states ∧ y.effects = x.effects ∧
      y.inserted = x.inserted := by
  unfold Exec.consume at h
  split at h <;> cases h <;> simp [Exec.popInput, Exec.releasePermit, hops, Stream.pop]

section Main

variable {ds : List ScanReturned} {limit : Int} {upsert : Bool} {r s k t : Nat} {b : Bool}

/-- **Reading the next message of the input** keeps `doUpdate` in its phases: a document is
updated and counted, `end_of_stream` ends the loop. -/
theorem UpdatePhase.main_input
    (ops : x.cp.ops = [⟨.finished, ⟨streamOf ds, k⟩⟩,
      ⟨.update ⟨0, limit, upsert, 0, (ds.take r).drop s, .main b⟩, ⟨(ds.take s).map .doc, t⟩⟩])
    (states : x.cp.states = [⟨0, r⟩]) (effects : x.effects = updatesOf (ds.take r))
    (inserted : x.inserted = 0) (stage : MainStage ds.length limit r s k b)
    (h : doUpdate x 1 ⟨0, limit, upsert, 0, (ds.take r).drop s, .main b⟩ .input = some y) :
    UpdatePhase ds limit upsert y := by
  obtain ⟨hsr, hrn, hrl, hb⟩ := stage
  cases b with
  | false => simp [doUpdate] at h
  | true =>
  obtain ⟨hk, hr0⟩ := hb
  subst k
  have hpeek : x.peek 0 = (streamOf ds)[r]? := by simp [Exec.peek, Exec.op?, ops, Stream.peek]
  have hcount : x.counter 0 = r := by simp [Exec.counter, PlanCheckpoint.counter, states]
  rcases Nat.lt_or_ge r ds.length with hlt | hge
  · -- a document: update it and count it
    simp only [doUpdate, hpeek, streamOf_getElem?_of_lt hlt, hcount, Option.some.injEq] at h
    subst h
    refine .main (r := r + 1) (s := s) (k := r + 1) (t := t) (b := decide ((r : Int) + 1 < limit))
      ?_ ?_ ?_ inserted ?_
    · simp [Exec.setActor, Exec.setCounter, Exec.write, Exec.popInput, PlanCheckpoint.setCounter,
        ops, Stream.pop, drop_take_succ hsr hlt]
    · simp [Exec.setActor, Exec.setCounter, Exec.write, Exec.popInput, PlanCheckpoint.setCounter,
        states]
    · show x.effects ++ [_] = _
      rw [effects, List.take_succ, List.getElem?_eq_getElem hlt]
      simp only [updatesOf, List.map_append, Option.toList_some, List.map_cons, List.map_nil]
    · simp only [MainStage]
      split <;> simp_all <;> omega
  · -- `end_of_stream`: the loop ends
    have hrn : r = ds.length := by omega
    subst hrn
    simp only [doUpdate, hpeek, streamOf_getElem?_length, List.take_length] at h
    split at h <;> simp only [Option.some.injEq] at h <;> subst h
    · -- nothing pending: after the drain, the upsert or the end of the output
      rename_i hnil
      have hs : s = ds.length := by simp only [List.drop_eq_nil_iff, List.length_take] at hnil; omega
      subst hs
      unfold updateAfterDrain
      split
      · rename_i hup
        have hds : ds = [] := List.eq_nil_of_length_eq_zero (by
          have := hup.2; simp only [Exec.popInput_counter, hcount] at this; omega)
        subst hds
        exact .upsert (t := t) hup.1 rfl (by simp [Exec.setActor, Exec.popInput, ops, Stream.pop])
          effects inserted (.inl rfl)
      · rename_i hup
        have hm : updateCount ds limit = ds.length := by simp only [updateCount]; omega
        refine .done (o := ⟨streamOf ds, ds.length + 1⟩) (t := t) ?_ (by rw [hm]; exact effects) fun h => hup ⟨h.1, by simp [hcount, h.2]⟩
        simp [Exec.setActor, Exec.send, Exec.popInput, ops, Stream.pop, Stream.send, hm]
    · -- documents pending: the drain loop
      refine .main (r := ds.length) (s := s) (k := ds.length + 1) (t := t) (b := false) ?_ states
        effects inserted ⟨hsr, hrn, hrl, ?_⟩
      · simp [Exec.setActor, Exec.popInput, ops, Stream.pop]
      · rename_i hnil
        simp only [List.drop_eq_nil_iff, List.length_take] at hnil
        simp only [Bool.false_eq_true, if_false]
        exact ⟨by omega, .inl ⟨trivial, trivial⟩⟩

/-- **The head document's update completes**: `doUpdate` sends it, and the last one of the
drain ends the loop and the output. -/
theorem UpdatePhase.main_complete
    (ops : x.cp.ops = [⟨.finished, ⟨streamOf ds, k⟩⟩,
      ⟨.update ⟨0, limit, upsert, 0, (ds.take r).drop s, .main b⟩, ⟨(ds.take s).map .doc, t⟩⟩])
    (states : x.cp.states = [⟨0, r⟩]) (effects : x.effects = updatesOf (ds.take r))
    (inserted : x.inserted = 0) (stage : MainStage ds.length limit r s k b)
    (h : doUpdate x 1 ⟨0, limit, upsert, 0, (ds.take r).drop s, .main b⟩ .complete = some y) :
    UpdatePhase ds limit upsert y := by
  obtain ⟨hsr, hrn, hrl, hb⟩ := stage
  rcases Nat.lt_or_ge s r with hlt | hge
  · have hsent : (ds.take (s + 1)).map Msg.doc = (ds.take s).map Msg.doc ++ [.doc ds[s]] := by
      rw [List.take_succ, List.getElem?_eq_getElem (by omega)]
      simp only [List.map_append, Option.toList_some, List.map_cons, List.map_nil]
    simp only [doUpdate, drop_take_eq_cons hlt hrn] at h
    split at h <;> simp only [Option.some.injEq] at h <;> subst h
    · -- the last document of the drain: the loop and the output end
      rename_i hlast
      have hr : r = s + 1 := by simp only [List.drop_eq_nil_iff, List.length_take] at hlast; omega
      subst hr
      obtain ⟨hbf, -⟩ := hlast
      simp only [Bool.not_eq_true] at hbf
      subst hbf
      simp only [Bool.false_eq_true, if_false] at hb
      have hm : updateCount ds limit = s + 1 := by simp only [updateCount]; omega
      have hpos : ¬(x.send 1 (.doc ds[s])).counter 0 = 0 := by
        rw [Exec.send_counter]
        simp only [Exec.counter, PlanCheckpoint.counter, states]
        simp; omega
      simp only [updateAfterDrain, hpos, and_false, if_false]
      refine .done (o := ⟨streamOf ds, k⟩) (t := t) ?_ (by rw [hm]; exact effects) ?_
      · simp [Exec.setActor, Exec.send, ops, Stream.send, hm, hsent]
      · rintro ⟨-, rfl⟩
        simp at hrn
    · -- otherwise the head is sent and the loop goes on
      rename_i hmore
      refine .main (r := r) (s := s + 1) (k := k) (t := t) (b := b) ?_ states effects inserted
        ⟨hlt, hrn, hrl, ?_⟩
      · simp [Exec.setActor, Exec.send, ops, Stream.send, hsent]
      · cases b
        · simp only [Bool.false_eq_true, if_false, not_false_eq_true, true_and, List.drop_eq_nil_iff,
            List.length_take] at hb hmore ⊢
          omega
        · exact hb
  · -- nothing pending: the head's future is `Never`
    have hnil : (ds.take r).drop s = [] := by simp; omega
    simp [doUpdate, hnil] at h

/-- **The upsert**: the permit, then the insert, whose document is sent before the end. -/
theorem UpdatePhase.upsert_step {w : UpdateWait} {ev : Event} (hup : upsert = true) (hds : ds = [])
    (ops : x.cp.ops = [⟨.finished, ⟨streamOf ds, 1⟩⟩, ⟨.update ⟨0, limit, upsert, 0, [], w⟩, ⟨[], t⟩⟩])
    (effects : x.effects = []) (inserted : x.inserted = 0)
    (wait : w = .upsertPermit ∨ w = .upsertInsert)
    (h : doUpdate x 1 ⟨0, limit, upsert, 0, [], w⟩ ev = some y) : UpdatePhase ds limit upsert y := by
  rcases wait with rfl | rfl <;> cases ev <;> simp only [doUpdate, reduceCtorEq] at h
  · -- the permit
    split at h <;> simp only [Option.some.injEq, reduceCtorEq] at h
    subst h
    exact .upsert (t := t) hup hds (by simp [Exec.setActor, Exec.takePermit, ops]) effects inserted
      (.inr rfl)
  · -- the insert
    simp only [Option.some.injEq] at h
    subst h
    refine .upserted (o := ⟨streamOf ds, 1⟩) (t := t) hup hds ?_ ?_
    · simp [Exec.setActor, Exec.send, Exec.insertDoc, Exec.nextInserted, ops, inserted, Stream.send,
        upsertedDoc]
    · simp [Exec.setActor, Exec.send, Exec.insertDoc, Exec.nextInserted, effects, inserted]

end Main

section Run

variable {ds : List ScanReturned} {limit : Int} {upsert : Bool}

/-- **`updateRun` starts reading**, nothing read, nothing sent. -/
theorem updatePhase_start : UpdatePhase ds limit upsert (updateRun ds limit upsert) :=
  .main (r := 0) (s := 0) (k := 0) (t := 0) (b := true) (by simp [updateRun, Stream.empty]) rfl rfl
    rfl ⟨le_rfl, Nat.zero_le _, by simp, by simp⟩

/-- **Every move keeps a run of `updateRun` in its phases.** -/
theorem UpdatePhase.move {c : Choice} (hx : UpdatePhase ds limit upsert x)
    (h : x.move env 1 c = some y) : UpdatePhase ds limit upsert y := by
  cases c with
  | consume =>
    cases hx with
    | main ops states effects inserted stage =>
      obtain ⟨ops', hs, he, hi⟩ := consume_ops ops h
      exact .main ops' (hs.trans states) (he.trans effects) (hi.trans inserted) stage
    | upsert hup hds ops effects inserted wait =>
      obtain ⟨ops', -, he, hi⟩ := consume_ops ops h
      exact .upsert hup hds ops' (he.trans effects) (hi.trans inserted) wait
    | done ops effects no_upsert =>
      obtain ⟨ops', -, he, -⟩ := consume_ops ops h
      exact .done ops' (he.trans effects) no_upsert
    | upserted hup hds ops effects =>
      obtain ⟨ops', -, he, -⟩ := consume_ops ops h
      exact .upserted hup hds ops' (he.trans effects)
  | step i ev =>
    cases hx with
    | main ops states effects inserted stage =>
      rw [Exec.move, step_eq_doUpdate ops] at h
      split at h
      · cases ev
        · exact .main_input ops states effects inserted stage h
        · simp [doUpdate] at h
        · exact .main_complete ops states effects inserted stage h
        · simp [doUpdate] at h
      · cases h
    | upsert hup hds ops effects inserted wait =>
      rw [Exec.move, step_eq_doUpdate ops] at h
      split at h
      · exact .upsert_step hup hds ops effects inserted wait h
      · cases h
    | done ops => simp [Exec.move, step_eq_none ops] at h
    | upserted _ _ ops => simp [Exec.move, step_eq_none ops] at h

/-- **Every run from a phase stays in the phases.** -/
theorem updatePhase_run : ∀ {x y : Exec} (cs : List Choice), UpdatePhase ds limit upsert x →
    Exec.run env 1 x cs = some y → UpdatePhase ds limit upsert y
  | _, _, [], hx, h => by cases h; exact hx
  | _, _, c :: cs, hx, h => by
    simp only [Exec.run, Option.bind_eq_some] at h
    obtain ⟨z, hz, h⟩ := h
    exact updatePhase_run cs (hx.move hz) h

/-- **A completed run of `doUpdate` updates and emits exactly the first `updateCount`
documents**, in input order, and upserts exactly when the input was empty and an upsert is
configured: once the output of `updateRun ds limit upsert` has ended, whatever the order of
the moves. -/
theorem doUpdate_updates_first {cs : List Choice} {y : Exec}
    (h : Exec.run env 1 (updateRun ds limit upsert) cs = some y) (hend : y.outputEnded 1 = true) :
    y.effects = updatesOf (ds.take (updateCount ds limit)) ++
        (if upsert = true ∧ ds = [] then [.insert (.inserted 0)] else []) ∧
      y.delivered 1 = ds.take (updateCount ds limit) ++
        (if upsert = true ∧ ds = [] then [upsertedDoc] else []) := by
  cases updatePhase_run cs updatePhase_start h with
  | main ops =>
    simp only [Exec.outputEnded, Exec.op?, ops, Stream.ended, List.getElem?_cons_succ,
      List.getElem?_cons_zero, Option.map_some', Option.getD_some, List.any_eq_true] at hend
    obtain ⟨m, hm, he⟩ := hend
    obtain ⟨d, -, rfl⟩ := List.mem_map.1 hm
    simp at he
  | upsert _ _ ops => simp [Exec.outputEnded, Exec.op?, ops, Stream.ended] at hend
  | done ops effects no_upsert =>
    refine ⟨by simp [effects, no_upsert], ?_⟩
    simp only [Exec.delivered, Exec.op?, ops, List.getElem?_cons_succ, List.getElem?_cons_zero,
      Option.map_some', Option.getD_some, Stream.docs, List.filterMap_append, List.filterMap_map,
      Msg.toDoc?_comp_doc, List.filterMap_some]
    simp [no_upsert, Msg.toDoc?]
  | upserted hup hds ops effects =>
    subst hds
    simp [Exec.delivered, Exec.op?, ops, Stream.docs, effects, hup, Msg.toDoc?, updatesOf]

end Run

/-- **With limit `0`, `doUpdate` still updates one document.** It counts the one document of
its input only after starting that document's update, so the run ends with the document
updated and emitted where the limit asks for none. -/
theorem updateLimitZero_updates_one :
    ∃ y, Exec.run emptyEnv 1 (updateRun [⟨.stored docKey, 0, docKey⟩] 0 false)
        [.step 1 .input, .step 1 .complete] = some y ∧ y.outputEnded 1 = true ∧
      y.effects = [.update (.stored docKey)] ∧ y.delivered 1 = [⟨.stored docKey, 0, docKey⟩] := by
  have h := show Exec.run emptyEnv 1 (updateRun [⟨.stored docKey, 0, docKey⟩] 0 false)
    [.step 1 .input, .step 1 .complete] = some _ from rfl
  obtain ⟨he, hd⟩ := doUpdate_updates_first h (by decide)
  exact ⟨_, h, by decide, he.trans rfl, hd.trans rfl⟩

end DocLayer
