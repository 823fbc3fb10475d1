import DocLayer.Run
import DocLayer.Execute

/-! # What the head-of-queue stages emit

`doFilter`, `deduplicateIndexStream`, `doProject`, `doFlushChanges` and `scanAndBuildIndex`
queue each document they read with the future they start for it, and decide the queue's head
when the head's future completes: so whatever order the futures complete in, they emit in
input order. `doInsert` does the same with its inserts. A future that completes while it is not
at the head wakes no one, so a run only ever completes the head's; when the head's fails, the
catch block ends the output with the error.

* **`QueueMove`** — what one step of a queue stage can do, on each event;
  `headQueueStep_queueMove` and `scanAndBuildIndex_queueMove` show that both loops make only
  these steps, and `QueueLive` that they can always complete a queued head and read a message.
* **`QueueRun`** — where a queue stage can be, given the messages it took: the documents it has
  decided, and the passing ones sent; `QueueRun.queueMove` is its step lemma.
* **`StageOutput`** — what an order-preserving stage has sent of what it owes its input;
  **`stageOwed`** — all it owes: the passing documents before the input's first error, then
  that error.
* **`StageInv`** — a queue stage behind a producer that has sent a given input, with the
  permits it gave back; `StageInv.reaches` carries it over every run, and
  `StageProgress.produces` shows that a run sending all of `stageOwed` goes on from every state
  that has sent a prefix of it.
* **`InsertRun`** — where `doInsert` can be, with what it has sent; `InsertProgress.produces`
  is its production lemma.
* **`headOfQueue_emits_in_order`** — every run of each of them emits what `StageOutput` says,
  and from every state that has not diverged from it a run emits all it owes. -/

namespace DocLayer

variable {env : Env}

/-! ## One step of a queue stage -/

/-- **What one step of a queue stage does**, as operation `i` reading operation `j`, in its
loop with the queue `fut` (and `ended` once its input has ended), its actor being `mk` of
both, woken by the event that wakes it. Reading (`input`), a document joins the queue;
`end_of_stream` ends the output when the queue is empty and starts the drain otherwise; another
error ends the output. Deciding (`complete`), the head is sent when it `passes` and gives its
permit back otherwise; the last one of the drain ends the output. The head's future failing
(`fail`) ends the output with the error. Only the checkpoint is described: what a stage writes
is not. -/
inductive QueueMove (passes : ScanReturned → Bool) (mk : List ScanReturned × Bool → Actor)
    (i j : Nat) (x : Exec) : List ScanReturned → Bool → Event → Exec → Prop
  | receive {fut : List ScanReturned} {d : ScanReturned} {y : Exec} : x.peek j = some (.doc d) →
      y.cp = ((x.popInput j).setActor i (mk (fut ++ [d], false))).cp →
      QueueMove passes mk i j x fut false .input y
  | close {y : Exec} : x.peek j = some (.error .endOfStream) →
      y.cp = ((x.popInput j).finish i .endOfStream).cp → QueueMove passes mk i j x [] false .input y
  | drain {fut : List ScanReturned} {y : Exec} : x.peek j = some (.error .endOfStream) → fut ≠ [] →
      y.cp = ((x.popInput j).setActor i (mk (fut, true))).cp →
      QueueMove passes mk i j x fut false .input y
  | fail {fut : List ScanReturned} {e : ErrorCode} {y : Exec} : x.peek j = some (.error e) →
      e ≠ .endOfStream → y.cp = ((x.popInput j).finish i e).cp →
      QueueMove passes mk i j x fut false .input y
  | decide {d : ScanReturned} {rest : List ScanReturned} {ended : Bool} {y : Exec} :
      ¬(ended = true ∧ rest = []) →
      y.cp = ((if passes d then x.send i (.doc d) else x.releasePermit).setActor i (mk (rest, ended))).cp →
      QueueMove passes mk i j x (d :: rest) ended .complete y
  | last {d : ScanReturned} {y : Exec} :
      y.cp = ((if passes d then x.send i (.doc d) else x.releasePermit).finish i .endOfStream).cp →
      QueueMove passes mk i j x [d] true .complete y
  | abort {d : ScanReturned} {rest : List ScanReturned} {ended : Bool} {y : Exec} :
      y.cp = (x.finish i .retryable).cp → QueueMove passes mk i j x (d :: rest) ended .fail y

/-- **The head-of-queue body makes only queue moves.** -/
theorem headQueueStep_queueMove {kind : QueueKind} {x y : Exec} {i j : Nat}
    {fut : List ScanReturned} {ended : Bool} {ev : Event}
    (h : headQueueStep env kind x i ⟨j, fut, ended⟩ ev = some y) :
    QueueMove (kind.passes env) (fun q => .headQueue kind ⟨j, q.1, q.2⟩) i j x fut ended ev y := by
  cases ev <;> simp only [headQueueStep, reduceCtorEq] at h
  · -- the input delivers its next message
    cases ended <;> simp only [Bool.false_eq_true, if_false, if_true, reduceCtorEq] at h
    rcases hp : x.peek j with _ | d | e <;> simp only [hp, reduceCtorEq] at h
    · cases h
      exact .receive hp (by simp [Exec.setActor])
    · by_cases he : e = .endOfStream
      · subst he
        simp only at h
        split at h <;> cases h
        · rename_i hnil
          subst hnil
          exact .close hp rfl
        · exact .drain hp ‹_› rfl
      · have hy : (x.popInput j).finish i e = y := by
          cases e <;> first | exact absurd rfl he | simpa using h
        exact .fail hp he (by rw [hy])
  · -- the head document's future completes
    rcases fut with _ | ⟨d, rest⟩
    · cases h
    simp only at h
    split at h <;> cases h
    · rename_i hl
      obtain ⟨rfl, rfl⟩ := hl
      exact .last rfl
    · exact .decide ‹_› rfl
  · -- the head document's future fails
    rcases fut with _ | ⟨d, rest⟩ <;> cases h
    exact .abort rfl

/-- **`scanAndBuildIndex`'s loop makes only queue moves**, every document passing. -/
theorem scanAndBuildIndex_queueMove {x y : Exec} {i j : Nat} {fut : List ScanReturned} {ended : Bool}
    {ev : Event} (h : scanAndBuildIndex x i ⟨j, fut, ended, false⟩ ev = some y) :
    QueueMove (fun _ => true) (fun q => .buildIndex ⟨j, q.1, q.2, false⟩) i j x fut ended ev y := by
  cases ev <;> simp only [scanAndBuildIndex, Bool.false_eq_true, false_or, if_false, reduceCtorEq] at h
  · -- the input delivers its next message
    cases ended <;> simp only [Bool.false_eq_true, if_false, if_true, reduceCtorEq] at h
    rcases hp : x.peek j with _ | d | e <;> simp only [hp, reduceCtorEq] at h
    · cases h
      exact .receive hp rfl
    · by_cases he : e = .endOfStream
      · subst he
        simp only at h
        split at h <;> cases h
        · rename_i hnil
          subst hnil
          exact .close hp rfl
        · exact .drain hp ‹_› rfl
      · have hy : (x.popInput j).finish i e = y := by
          cases e <;> first | exact absurd rfl he | simpa using h
        exact .fail hp he (by rw [hy])
  · -- the head document's future completes
    rcases fut with _ | ⟨d, rest⟩
    · cases h
    simp only at h
    split at h <;> cases h
    · rename_i hl
      obtain ⟨rfl, rfl⟩ := hl
      exact .last rfl
    · exact .decide ‹_› rfl
  · -- the head document's future fails
    rcases fut with _ | ⟨d, rest⟩ <;> simp at h
    subst h
    exact .abort rfl

/-! ## Where a queue stage can be -/

/-- **Where a queue stage can be**, given the messages it took from its input, with the
documents it has decided, in input order, and the messages it has sent: in its loop
(`some (fut, ended)`), the documents taken being the decided ones then the queue `fut`; or
returned (`none`), after `end_of_stream` with every document decided, after another error of
its input, or after the future of its queue's head failed. It has sent the decided documents
that pass, in order, then the error that ended its output. -/
inductive QueueRun (passes : ScanReturned → Bool) :
    List Msg → List ScanReturned → Option (List ScanReturned × Bool) → List Msg → Prop
  | reading {ds fut : List ScanReturned} :
      QueueRun passes ((ds ++ fut).map .doc) ds (some (fut, false)) ((ds.filter passes).map .doc)
  | draining {ds fut : List ScanReturned} : fut ≠ [] →
      QueueRun passes ((ds ++ fut).map .doc ++ [.error .endOfStream]) ds (some (fut, true))
        ((ds.filter passes).map .doc)
  | ended {ds : List ScanReturned} :
      QueueRun passes (ds.map .doc ++ [.error .endOfStream]) ds none
        ((ds.filter passes).map .doc ++ [.error .endOfStream])
  | failed {ds fut : List ScanReturned} {e : ErrorCode} : e ≠ .endOfStream →
      QueueRun passes ((ds ++ fut).map .doc ++ [.error e]) ds none
        ((ds.filter passes).map .doc ++ [.error e])
  | aborted {ds fut : List ScanReturned} {rest : List Msg} : fut ≠ [] →
      rest = [] ∨ rest = [.error .endOfStream] →
      QueueRun passes ((ds ++ fut).map .doc ++ rest) ds none
        ((ds.filter passes).map .doc ++ [.error .retryable])

/-- **Everything an order-preserving stage owes its input**: the passing documents before the
input's first error, in input order, then that error. -/
def stageOwed (passes : ScanReturned → Bool) : List Msg → List Msg
  | [] => []
  | .doc d :: rest => (if passes d then [.doc d] else []) ++ stageOwed passes rest
  | .error e :: _ => [.error e]

example : stageOwed (fun d => d.scanId = 0)
    [.doc ⟨.inserted 0, 0, []⟩, .doc ⟨.inserted 1, 1, []⟩, .error .endOfStream, .error .retryable] =
    [.doc ⟨.inserted 0, 0, []⟩, .error .endOfStream] := by decide

section Owed

variable {passes : ScanReturned → Bool} {ds : List ScanReturned}

theorem stageOwed_docs_append (ds : List ScanReturned) (rest : List Msg) :
    stageOwed passes (ds.map .doc ++ rest) = (ds.filter passes).map .doc ++ stageOwed passes rest := by
  induction ds with
  | nil => rfl
  | cons d ds ih => by_cases hp : passes d <;> simp [stageOwed, ih, hp, List.filter_cons]

/-- What a stage owes an input of which it has taken the documents `ds`, then `tail`. -/
theorem stageOwed_of_take {l : List Msg} {t : Nat} {tail : List Msg} (h : l.take t = ds.map .doc ++ tail) :
    stageOwed passes l = (ds.filter passes).map .doc ++ stageOwed passes (tail ++ l.drop t) := by
  conv_lhs => rw [← List.take_append_drop t l, h, List.append_assoc]
  exact stageOwed_docs_append ds _

/-- **A stage that has taken its input's error after the documents `ds` and decided them all**
owes nothing more than the passing ones and that error. -/
theorem isPrefix_owed_of_take {l : List Msg} {t : Nat} {e : ErrorCode}
    (h : l.take t = ds.map .doc ++ [.error e]) :
    (ds.filter passes).map .doc ++ [.error e] <+: stageOwed passes l := by
  rw [stageOwed_of_take h]
  simp [stageOwed]

/-- **What a stage owes ends at the input's first error**: an output that ends with an error
and is a prefix of it is all of it. -/
theorem stageOwed_eq_of_isPrefix (l : List Msg) :
    ∀ {pre : List Msg} {e : ErrorCode}, pre ++ [.error e] <+: stageOwed passes l →
      stageOwed passes l = pre ++ [.error e] := by
  induction l with
  | nil => intro pre e h; simpa [stageOwed] using h.length_le
  | cons m l ih =>
    intro pre e h
    rcases m with d | e'
    · by_cases hp : passes d
      · rcases pre with _ | ⟨m, pre⟩
        · simp [stageOwed, hp] at h
        · simp only [stageOwed, hp, if_true, List.cons_append, List.nil_append,
            List.cons_prefix_cons] at h ⊢
          rw [h.1, ih h.2]
      · simp only [stageOwed, hp, Bool.false_eq_true, if_false, List.nil_append] at h ⊢
        exact ih h
    · rcases pre with _ | ⟨m, pre⟩
      · obtain rfl : e = e' := by simpa [stageOwed] using h
        rfl
      · simpa [stageOwed] using h.length_le

variable {l : List Msg} {t : Nat} {out : List Msg}

/-- **A stage in its loop has sent a prefix of what it owes.** -/
theorem QueueRun.isPrefix_owed {q : List ScanReturned × Bool}
    (h : QueueRun passes (l.take t) ds (some q) out) : out <+: stageOwed passes l := by
  generalize hM : l.take t = M at h
  cases h with
  | reading =>
    rename_i fut
    rw [stageOwed_of_take (show l.take t = ds.map .doc ++ fut.map .doc by simpa using hM)]
    exact List.prefix_append _ _
  | draining =>
    rename_i fut _
    rw [stageOwed_of_take
      (show l.take t = ds.map .doc ++ (fut.map .doc ++ [.error .endOfStream]) by simpa using hM)]
    exact List.prefix_append _ _

/-- **What a stage owes a prefix of its input is a prefix of what it owes the whole.** -/
theorem stageOwed_append_prefix (l r : List Msg) : stageOwed passes l <+: stageOwed passes (l ++ r) := by
  induction l with
  | nil => exact List.nil_prefix
  | cons m l ih =>
    rcases m with d | e
    · exact (List.prefix_append_right_inj _).2 ih
    · exact List.prefix_refl _

theorem stageOwed_mono {l L : List Msg} (h : l <+: L) : stageOwed passes l <+: stageOwed passes L := by
  obtain ⟨r, rfl⟩ := h
  exact stageOwed_append_prefix l r

/-- **A stage none of whose futures failed, behind an input that did not fail, has sent a
prefix of what it owes.** -/
theorem QueueRun.isPrefix_owed_of_not_failed {q : Option (List ScanReturned × Bool)}
    (h : QueueRun passes (l.take t) ds q out) (hf : out.any Msg.isFailure = false) :
    out <+: stageOwed passes l := by
  rcases q with _ | q
  · generalize hM : l.take t = M at h
    cases h with
    | ended => exact isPrefix_owed_of_take hM
    | failed he => simp [Msg.isFailure, he] at hf
    | aborted => simp [Msg.isFailure] at hf
  · exact h.isPrefix_owed

/-- **A stage that has returned has ended its output with an error.** -/
theorem QueueRun.ends_with_error {M : List Msg} (h : QueueRun passes M ds none out) :
    ∃ pre e, out = pre ++ [.error e] := by
  cases h <;> exact ⟨_, _, rfl⟩

end Owed

section QueueStep

variable {passes : ScanReturned → Bool} {mk : List ScanReturned × Bool → Actor} {x y : Exec}
  {a0 : Actor} {l0 l1 : List Msg} {t0 t1 : Nat} {ds fut : List ScanReturned} {ended : Bool} {ev : Event}

/-- Deciding `d` after `ds`: the documents sent, and the ones dropped. -/
theorem filter_snoc_map (d : ScanReturned) :
    ((ds ++ [d]).filter passes).map Msg.doc =
      (ds.filter passes).map .doc ++ if passes d then [.doc d] else [] := by
  by_cases hp : passes d <;> simp [List.filter_append, hp]

theorem dropped_snoc (d : ScanReturned) :
    ((ds ++ [d]).filter (!passes ·)).length = (ds.filter (!passes ·)).length + (!passes d).toNat := by
  by_cases hp : passes d <;> simp [List.filter_append, hp]

/-- Deciding a document gives its permit back exactly when it is dropped. -/
theorem decide_active (i : Nat) (d : ScanReturned) :
    (if passes d then x.send i (.doc d) else x.releasePermit).cp.flowControlLock.active =
      x.cp.flowControlLock.active - (!passes d).toNat := by
  by_cases hp : passes d <;> simp [hp, Exec.send, Exec.releasePermit, FlowControlLock.release]

/-- **One queue move from a state of `QueueRun`**, in a two-operation execution whose
operation `0` has sent `l0`: the stage takes at most the next message, decides at most its
head, appends only to its output, and gives a permit back for each document it drops. Each
move lowers the count of moves left (four for each message not taken, three for each queued
document) by more than it sends, and one that completes the head or reads into an empty queue
keeps the output a prefix of what the stage owes. -/
theorem QueueRun.queueMove
    (hops : x.cp.ops = [⟨a0, ⟨l0, t0⟩⟩, ⟨mk (fut, ended), ⟨l1, t1⟩⟩]) (ht : t0 ≤ l0.length)
    (h : QueueRun passes (l0.take t0) ds (some (fut, ended)) l1)
    (hm : QueueMove passes mk 1 0 x fut ended ev y) :
    ∃ t0' ds' s ms, y.cp.ops = [⟨a0, ⟨l0, t0'⟩⟩, ⟨s.elim .finished mk, ⟨l1 ++ ms, t1⟩⟩] ∧
      t0' ≤ l0.length ∧ QueueRun passes (l0.take t0') ds' s (l1 ++ ms) ∧
      y.cp.flowControlLock.active + (ds'.filter (!passes ·)).length =
        x.cp.flowControlLock.active + (ds.filter (!passes ·)).length ∧
      4 * (l0.length - t0') + 3 * s.elim 0 (fun q => q.1.length) + ms.length <
        4 * (l0.length - t0) + 3 * fut.length ∧
      (ev = .complete ∨ ev = .input ∧ fut = [] → l1 ++ ms <+: stageOwed passes l0) := by
  have hpeek : x.peek 0 = l0[t0]? := by simp [Exec.peek, Exec.op?, hops, Stream.peek]
  have htake : ∀ {m : Msg}, l0[t0]? = some m → t0 + 1 ≤ l0.length ∧ l0.take (t0 + 1) = l0.take t0 ++ [m] :=
    fun hm => ⟨(List.getElem?_eq_some_iff.1 hm).1, take_succ_of_getElem? hm⟩
  generalize hM : l0.take t0 = M at h
  cases hm with
  | receive hp hy =>
    rename_i d
    obtain ⟨hlt, hM'⟩ := htake (hpeek ▸ hp)
    cases h
    have hrun : QueueRun passes (l0.take (t0 + 1)) ds (some (fut ++ [d], false))
        ((ds.filter passes).map .doc ++ []) := by
      rw [hM', hM, List.append_nil]
      simpa using @QueueRun.reading passes ds (fut ++ [d])
    refine ⟨t0 + 1, ds, _, [], by simp [hy, Exec.setActor, Exec.popInput, hops, Stream.pop], hlt, hrun,
      by simp [hy, Exec.setActor, Exec.popInput], ?_, fun _ => hrun.isPrefix_owed⟩
    simp only [Option.elim, List.length_append, List.length_singleton, List.length_nil]
    omega
  | close hp hy =>
    obtain ⟨hlt, hM'⟩ := htake (hpeek ▸ hp)
    cases h
    have htk : l0.take (t0 + 1) = ds.map .doc ++ [.error .endOfStream] := by simpa [hM] using hM'
    refine ⟨t0 + 1, ds, none, [.error .endOfStream], by
      simp [hy, Exec.setActor, Exec.popInput, Exec.send, hops, Stream.pop, Stream.send], hlt,
      by rw [htk]; exact .ended, by simp [hy, Exec.setActor, Exec.popInput, Exec.send], by
      simp only [Option.elim, List.length_singleton]; omega, fun _ => isPrefix_owed_of_take htk⟩
  | drain hp hne hy =>
    obtain ⟨hlt, hM'⟩ := htake (hpeek ▸ hp)
    cases h
    have hrun : QueueRun passes (l0.take (t0 + 1)) ds (some (fut, true))
        ((ds.filter passes).map .doc ++ []) := by
      rw [hM', hM, List.append_nil]
      exact .draining hne
    refine ⟨t0 + 1, ds, _, [], by simp [hy, Exec.setActor, Exec.popInput, hops, Stream.pop], hlt, hrun,
      by simp [hy, Exec.setActor, Exec.popInput], ?_, fun _ => hrun.isPrefix_owed⟩
    simp only [Option.elim, List.length_nil]
    omega
  | fail hp he hy =>
    rename_i e
    obtain ⟨hlt, hM'⟩ := htake (hpeek ▸ hp)
    cases h
    refine ⟨t0 + 1, ds, none, [.error e], by
      simp [hy, Exec.setActor, Exec.popInput, Exec.send, hops, Stream.pop, Stream.send], hlt,
      by rw [hM', hM]; exact .failed he, by simp [hy, Exec.setActor, Exec.popInput, Exec.send], by
      simp only [Option.elim, List.length_singleton]; omega, ?_⟩
    rintro (hev | ⟨-, rfl⟩)
    · cases hev
    · exact isPrefix_owed_of_take (by simpa [hM] using hM')
  | decide hl hy =>
    rename_i d rest
    have hrun : QueueRun passes (l0.take t0) (ds ++ [d]) (some (rest, ended))
        (l1 ++ if passes d then [.doc d] else []) := by
      rw [hM]
      cases h with
      | reading =>
        rw [← filter_snoc_map]
        simpa using @QueueRun.reading passes (ds ++ [d]) rest
      | draining =>
        rw [← filter_snoc_map]
        simpa using @QueueRun.draining passes (ds ++ [d]) rest fun hr => hl ⟨rfl, hr⟩
    have hms : (if passes d then [Msg.doc d] else []).length ≤ 1 := by split <;> simp
    refine ⟨t0, ds ++ [d], some (rest, ended), if passes d then [.doc d] else [], ?_, ht, hrun, ?_, by
      simp only [Option.elim, List.length_cons]; omega, fun _ => hrun.isPrefix_owed⟩
    · by_cases hp : passes d <;> simp [hy, hp, Exec.setActor, Exec.send, Exec.releasePermit, hops, Stream.send]
    · have hl : y.cp.flowControlLock.active =
          (if passes d then x.send 1 (.doc d) else x.releasePermit).cp.flowControlLock.active := by
        rw [hy]; rfl
      rw [dropped_snoc, hl, decide_active]
      omega
  | last hy =>
    rename_i d
    cases h
    have htk : l0.take t0 = (ds ++ [d]).map .doc ++ [.error .endOfStream] := by simpa using hM
    have hsent : (ds.filter passes).map Msg.doc ++ ((if passes d then [.doc d] else []) ++ [.error .endOfStream]) =
        ((ds ++ [d]).filter passes).map .doc ++ [.error .endOfStream] := by
      rw [← List.append_assoc, ← filter_snoc_map]
    have hms : (if passes d then [Msg.doc d] else []).length ≤ 1 := by split <;> simp
    refine ⟨t0, ds ++ [d], none, (if passes d then [.doc d] else []) ++ [.error .endOfStream], ?_, ht,
      by rw [htk, hsent]; exact .ended, ?_, by
        simp only [Option.elim, List.length_singleton, List.length_append]; omega,
      fun _ => hsent ▸ isPrefix_owed_of_take htk⟩
    · by_cases hp : passes d <;> simp [hy, hp, Exec.setActor, Exec.send, Exec.releasePermit, hops, Stream.send]
    · have hl : y.cp.flowControlLock.active =
          (if passes d then x.send 1 (.doc d) else x.releasePermit).cp.flowControlLock.active := by
        rw [hy]; rfl
      rw [dropped_snoc, hl, decide_active]
      omega
  | abort hy =>
    rename_i d rest
    have hrun : QueueRun passes (l0.take t0) ds none (l1 ++ [.error .retryable]) := by
      rw [hM]
      cases h with
      | reading => simpa using @QueueRun.aborted passes ds (d :: rest) [] (List.cons_ne_nil d rest) (.inl rfl)
      | draining => exact .aborted (List.cons_ne_nil d rest) (.inr rfl)
    refine ⟨t0, ds, none, [.error .retryable], by
      simp [hy, Exec.setActor, Exec.send, hops, Stream.send], ht, hrun,
      by simp [hy, Exec.setActor, Exec.send], by
        simp only [Option.elim, List.length_cons, List.length_nil]; omega, ?_⟩
    rintro (hev | ⟨hev, -⟩) <;> cases hev

end QueueStep

/-! ## What a stage owes its input -/

/-- **What an order-preserving stage has sent of what it owes its input** `input`, once it has
decided its first documents `ds`: the passing ones among them, in input order, each once; then,
if its output has ended, `end_of_stream` where its input ended, every document before it
decided; or an error its input carried after documents it had not decided; or, a future it
waited on having failed, that error. -/
inductive StageOutput (passes : ScanReturned → Bool) (input : List Msg) (ds : List ScanReturned) :
    List Msg → Prop
  | deciding {rest : List Msg} : input = ds.map .doc ++ rest →
      StageOutput passes input ds ((ds.filter passes).map .doc)
  | ended {rest : List Msg} : input = ds.map .doc ++ .error .endOfStream :: rest →
      StageOutput passes input ds ((ds.filter passes).map .doc ++ [.error .endOfStream])
  | failed {fut : List ScanReturned} {e : ErrorCode} {rest : List Msg} : e ≠ .endOfStream →
      input = (ds ++ fut).map .doc ++ .error e :: rest →
      StageOutput passes input ds ((ds.filter passes).map .doc ++ [.error e])
  | aborted {rest : List Msg} : input = ds.map .doc ++ rest →
      StageOutput passes input ds ((ds.filter passes).map .doc ++ [.error .retryable])

/-- **A queue stage owes its input what it has sent.** -/
theorem QueueRun.stageOutput {passes : ScanReturned → Bool} {input : List Msg} {t0 : Nat}
    {ds : List ScanReturned} {s : Option (List ScanReturned × Bool)} {out : List Msg}
    (h : QueueRun passes (input.take t0) ds s out) : StageOutput passes input ds out := by
  have hsplit := (List.take_append_drop t0 input).symm
  generalize input.take t0 = M at h hsplit
  cases h with
  | reading =>
    rename_i fut
    exact .deciding (show input = _ ++ (fut.map .doc ++ input.drop t0) by simpa using hsplit)
  | draining =>
    rename_i fut _
    exact .deciding (show input = _ ++ (fut.map .doc ++ .error .endOfStream :: input.drop t0) by
      simpa using hsplit)
  | ended => exact .ended (by simpa using hsplit)
  | failed he => exact .failed he (by simpa using hsplit)
  | aborted =>
    rename_i fut rest _ _
    exact .aborted (show input = _ ++ (fut.map .doc ++ rest ++ input.drop t0) by simpa using hsplit)

/-! ## A queue stage behind a producer -/

/-- **A stage behind a producer that has sent `input`**: on checkpoint `cp`, operation `0` has
returned after sending `input`, and operation `1` is the freshly started `actor`. -/
def stageExec (cp : PlanCheckpoint) (actor : Actor) (input : List Msg) : Exec :=
  ⟨{ cp with ops := [⟨.finished, ⟨input, 0⟩⟩, ⟨actor, .empty⟩] }, [], 0⟩

/-- **Operation `1` is a queue stage reading operation `0`**: every step it takes in its loop,
its actor being `mk` of its queue and end flag, is a queue move. -/
def QueueStage (env : Env) (passes : ScanReturned → Bool) (mk : List ScanReturned × Bool → Actor) :
    Prop :=
  ∀ {x y : Exec} {q : List ScanReturned × Bool} {o : Stream} {ev : Event},
    x.op? 1 = some ⟨mk q, o⟩ → x.step env 1 ev = some y → QueueMove passes mk 1 0 x q.1 q.2 ev y

/-- **Operation `1` can go on**: a queue stage in its loop can decide its head when its queue
is not empty, and take the next message of its input while it is reading. -/
def QueueLive (env : Env) (mk : List ScanReturned × Bool → Actor) : Prop :=
  ∀ {x : Exec} {q : List ScanReturned × Bool} {o : Stream}, x.op? 1 = some ⟨mk q, o⟩ →
    (q.1 ≠ [] → ∃ y, x.step env 1 .complete = some y) ∧
    (q.2 = false → x.peek 0 ≠ none → ∃ y, x.step env 1 .input = some y)

theorem headQueue_queueStage (kind : QueueKind) :
    QueueStage env (kind.passes env) fun q => .headQueue kind ⟨0, q.1, q.2⟩ := fun ho h =>
  headQueueStep_queueMove (by simpa only [Exec.step, ho, headQueueActor_eq] using h)

theorem buildIndex_queueStage :
    QueueStage env (fun _ => true) fun q => .buildIndex ⟨0, q.1, q.2, false⟩ := fun ho h =>
  scanAndBuildIndex_queueMove (by simpa only [Exec.step, ho] using h)

/-- **A head-of-queue actor can go on**: it decides a queued head, and reads while it is
reading. -/
theorem headQueue_live {kind : QueueKind} {x : Exec} {fut : List ScanReturned} {ended : Bool}
    {o : Stream} (ho : x.op? 1 = some ⟨.headQueue kind ⟨0, fut, ended⟩, o⟩) :
    (fut ≠ [] → ∃ y, x.step env 1 .complete = some y) ∧
      (ended = false → x.peek 0 ≠ none → ∃ y, x.step env 1 .input = some y) := by
  simp only [Exec.step, ho, headQueueActor_eq]
  refine ⟨fun hne => ?_, fun hend hp => ?_⟩
  · obtain ⟨d, rest, rfl⟩ := List.exists_cons_of_ne_nil hne
    simp only [headQueueStep]
    split <;> exact ⟨_, rfl⟩
  · subst hend
    simp only [headQueueStep, Bool.false_eq_true, if_false]
    rcases hm : x.peek 0 with _ | d | e
    · exact absurd hm hp
    · exact ⟨_, rfl⟩
    · cases e <;> simp only [reduceCtorEq] <;> (try split) <;> exact ⟨_, rfl⟩

theorem headQueue_queueLive (kind : QueueKind) :
    QueueLive env fun q => .headQueue kind ⟨0, q.1, q.2⟩ := fun ho => headQueue_live ho

theorem buildIndex_queueLive : QueueLive env fun q => .buildIndex ⟨0, q.1, q.2, false⟩ := by
  rintro x ⟨fut, ended⟩ o ho
  simp only [Exec.step, ho]
  refine ⟨fun hne => ?_, fun hend hp => ?_⟩
  · obtain ⟨d, rest, rfl⟩ := List.exists_cons_of_ne_nil hne
    simp only [scanAndBuildIndex, Bool.false_eq_true, if_false]
    split <;> exact ⟨_, rfl⟩
  · subst hend
    simp only [scanAndBuildIndex, Bool.false_eq_true, or_self, if_false]
    rcases hm : x.peek 0 with _ | d | e
    · exact absurd hm hp
    · exact ⟨_, rfl⟩
    · cases e <;> simp only [reduceCtorEq] <;> (try split) <;> exact ⟨_, rfl⟩

/-- **A queue stage behind a producer that has sent `input`**: operation `0` has returned after
sending `input`, of which the stage, operation `1`, has taken `t0`; the stage is where
`QueueRun` says, and its consumer has taken `t1` of its output. The lock, which had `active0`
permits taken, got one back for each document the stage dropped and each one the consumer
took. -/
def StageInv (passes : ScanReturned → Bool) (mk : List ScanReturned × Bool → Actor)
    (input : List Msg) (active0 : Int) (x : Exec) : Prop :=
  ∃ t0 ds s out t1, x.cp.ops = [⟨.finished, ⟨input, t0⟩⟩, ⟨s.elim .finished mk, ⟨out, t1⟩⟩] ∧
    t0 ≤ input.length ∧ t1 ≤ out.length ∧ QueueRun passes (input.take t0) ds s out ∧
    active0 = x.cp.flowControlLock.active + ((ds.filter (!passes ·)).length + (docsOf (out.take t1)).length)

section Harness

variable {passes : ScanReturned → Bool} {mk : List ScanReturned × Bool → Actor} {input : List Msg}
  {active0 : Int} {x y : Exec}

theorem stageInv_start (cp : PlanCheckpoint) :
    StageInv passes mk input cp.flowControlLock.active (stageExec cp (mk ([], false)) input) :=
  ⟨0, [], some ([], false), [], 0, rfl, Nat.zero_le _, le_rfl,
    by simpa using @QueueRun.reading passes [] [], by simp [stageExec]⟩

/-- **The consumer of a stage's output** takes its next message, and gives a permit back for a
document. -/
theorem consume_stage {o0 : Op} {a : Actor} {t1 : Nat} {out : List Msg}
    (hops : x.cp.ops = [o0, ⟨a, ⟨out, t1⟩⟩]) (hm : x.consume 1 = some y) :
    t1 < out.length ∧ y.cp.ops = [o0, ⟨a, ⟨out, t1 + 1⟩⟩] ∧
      x.cp.flowControlLock.active + (docsOf (out.take t1)).length =
        y.cp.flowControlLock.active + (docsOf (out.take (t1 + 1))).length := by
  have hpeek : x.peek 1 = out[t1]? := by simp [Exec.peek, Exec.op?, hops, Stream.peek]
  rcases hout : out[t1]? with _ | m
  · simp [Exec.consume, hpeek, hout] at hm
  have hlt : t1 < out.length := (List.getElem?_eq_some_iff.1 hout).1
  refine ⟨hlt, by simp [Exec.consume_ops hm, hops, Stream.pop], ?_⟩
  rw [take_succ_of_getElem? hout, docsOf_append]
  rcases m with d | e <;> simp only [Exec.consume, hpeek, hout, Option.some.injEq] at hm <;> subst hm
  · have hl : ((x.popInput 1).releasePermit).cp.flowControlLock.active = x.cp.flowControlLock.active - 1 :=
      rfl
    simp only [hl, docsOf_cons_doc, docsOf_nil, List.length_append, List.length_singleton]
    omega
  · simp only [docsOf_cons_error, docsOf_nil, List.append_nil]
    rfl

/-- **Every move keeps a queue stage in its states.** -/
theorem StageInv.move (hq : QueueStage env passes mk) (h : StageInv passes mk input active0 x)
    {c : Choice} (hm : x.move env 1 c = some y) : StageInv passes mk input active0 y := by
  obtain ⟨t0, ds, s, out, t1, hops, ht0, ht1, hrun, hlock⟩ := h
  cases c with
  | consume =>
    obtain ⟨hlt, hops', hact⟩ := consume_stage hops hm
    exact ⟨t0, ds, s, out, t1 + 1, hops', ht0, hlt, hrun, by omega⟩
  | step i ev =>
    rcases i with _ | _ | i <;> simp only [Exec.move, Exec.step, Exec.op?, hops, List.getElem?_cons_zero,
      List.getElem?_cons_succ, List.getElem?_nil, reduceCtorEq] at hm
    rcases s with _ | q
    · cases hm
    have ho : x.op? 1 = some ⟨mk q, ⟨out, t1⟩⟩ := by simp [Exec.op?, hops]
    obtain ⟨t0', ds', s', ms, hops', ht0', hrun', hact, -⟩ :=
      QueueRun.queueMove hops ht0 hrun (hq ho (by simpa [Exec.step, ho] using hm))
    refine ⟨t0', ds', s', out ++ ms, t1, hops', ht0', by simp; omega, hrun', ?_⟩
    rw [List.take_append_of_le_length ht1]
    omega

/-- **Every run keeps a queue stage in its states.** -/
theorem StageInv.reaches (hq : QueueStage env passes mk) (h : StageInv passes mk input active0 x)
    (hr : Exec.Reaches env 1 x y) : StageInv passes mk input active0 y := by
  induction hr with
  | refl => exact h
  | tail _ hm ih =>
    obtain ⟨c, hc⟩ := hm
    exact ih.move hq hc

/-- **A queue stage that can still send all it owes**: in its states, its output a prefix of
`stageOwed`; `n` counts the moves it needs at most, two for each message of its input not yet
taken and three for each queued document. -/
def StageProgress (passes : ScanReturned → Bool) (mk : List ScanReturned × Bool → Actor)
    (input : List Msg) (n : Nat) (x : Exec) : Prop :=
  ∃ t0 ds s out t1, x.cp.ops = [⟨.finished, ⟨input, t0⟩⟩, ⟨s.elim .finished mk, ⟨out, t1⟩⟩] ∧
    t0 ≤ input.length ∧ QueueRun passes (input.take t0) ds s out ∧ out <+: stageOwed passes input ∧
    n = 4 * (input.length - t0) + 3 * s.elim 0 fun q => q.1.length

/-- **One move towards all a stage owes**: the stage has sent it, or deciding its head (when
its queue is not empty) or reading its input (when it is) keeps it able to, with fewer moves
left. -/
theorem StageProgress.step (hq : QueueStage env passes mk) (hl : QueueLive env mk) {n : Nat}
    (h : StageProgress passes mk input n x) :
    x.sentAt 1 = some (stageOwed passes input) ∨
      ∃ m y, (∃ c, x.move env 1 c = some y) ∧ StageProgress passes mk input m y ∧ m < n := by
  obtain ⟨t0, ds, s, out, t1, hops, ht0, hrun, hpre, rfl⟩ := h
  have hsent : x.sentAt 1 = some out := by simp [Exec.sentAt, Exec.op?, hops]
  rcases s with _ | ⟨fut, ended⟩
  · -- returned: its output ended with an error, so it is all the stage owes
    obtain ⟨pre, e, rfl⟩ := hrun.ends_with_error
    exact .inl (hsent.trans (congrArg some (stageOwed_eq_of_isPrefix input hpre).symm))
  have ho : x.op? 1 = some ⟨mk (fut, ended), ⟨out, t1⟩⟩ := by simp [Exec.op?, hops]
  have advance : ∀ ev y, x.step env 1 ev = some y → (ev = .complete ∨ ev = .input ∧ fut = []) →
      ∃ m y, (∃ c, x.move env 1 c = some y) ∧ StageProgress passes mk input m y ∧
        m < 4 * (input.length - t0) + 3 * fut.length := by
    intro ev y hy hev
    obtain ⟨t0', ds', s', ms, hops', ht', hrun', -, hlt, howed⟩ :=
      QueueRun.queueMove hops ht0 hrun (hq ho hy)
    exact ⟨_, y, ⟨.step 1 ev, hy⟩, ⟨t0', ds', s', out ++ ms, t1, hops', ht', hrun', howed hev, rfl⟩,
      by omega⟩
  rcases fut with _ | ⟨d, rest⟩
  · -- the queue is empty, so the stage is reading
    cases ended
    · by_cases hlt : t0 < input.length
      · obtain ⟨y, hy⟩ := (hl ho).2 rfl (by simp [Exec.peek, Exec.op?, hops, Stream.peek, hlt])
        exact .inr (advance .input y hy (.inr ⟨rfl, rfl⟩))
      · -- it has taken its whole input, documents only, and decided them all
        have hall : input.take t0 = input := List.take_of_length_le (by omega)
        generalize hM : input.take t0 = M at hrun
        cases hrun
        have hin : input = ds.map .doc := by simpa [hall] using hM
        refine .inl (hsent.trans ?_)
        rw [hin]
        simpa [stageOwed] using (@stageOwed_docs_append passes ds []).symm
    · generalize input.take t0 = M at hrun
      rcases hrun with _ | ⟨hne⟩
      exact absurd rfl hne
  · obtain ⟨y, hy⟩ := (hl ho).1 (List.cons_ne_nil _ _)
    exact .inr (advance .complete y hy (.inl rfl))

/-- **From every state of a queue stage that has sent a prefix of what it owes, a run sends
all of it.** -/
theorem StageInv.produces (hq : QueueStage env passes mk) (hl : QueueLive env mk)
    (h : StageInv passes mk input active0 x)
    (hpre : ∀ out, x.sentAt 1 = some out → out <+: stageOwed passes input) :
    ∃ y, Exec.Reaches env 1 x y ∧ y.sentAt 1 = some (stageOwed passes input) := by
  obtain ⟨t0, ds, s, out, t1, hops, ht0, -, hrun, -⟩ := h
  exact Exec.reaches_of_measure (StageProgress passes mk input) _ (fun _ _ h => h.step hq hl) _ x
    ⟨t0, ds, s, out, t1, hops, ht0, hrun, hpre out (by simp [Exec.sentAt, Exec.op?, hops]), rfl⟩

end Harness

/-! ## `scanAndBuildIndex` before its loop -/

/-- **`scanAndBuildIndex` behind a producer that has sent `input`**: waiting for the commit of
the progress marker, nothing taken or sent and the lock as it was; returned after that commit
failed, with the error sent; or in its loop. -/
def BuildIndexInv (input : List Msg) (active0 : Int) (x : Exec) : Prop :=
  (x.cp.ops = [⟨.finished, ⟨input, 0⟩⟩, ⟨.buildIndex ⟨0, [], false, true⟩, .empty⟩] ∧
      x.cp.flowControlLock.active = active0) ∨
    (∃ t, x.cp.ops = [⟨.finished, ⟨input, 0⟩⟩, ⟨.finished, ⟨[.error .retryable], t⟩⟩]) ∨
    StageInv (fun _ => true) (fun q => .buildIndex ⟨0, q.1, q.2, false⟩) input active0 x

section BuildIndex

variable {input : List Msg} {active0 : Int} {x y : Exec}

/-- **The marker's commit**: it starts the loop, or fails and ends the output. -/
theorem buildIndex_marking_step {ev : Event}
    (hops : x.cp.ops = [⟨.finished, ⟨input, 0⟩⟩, ⟨.buildIndex ⟨0, [], false, true⟩, .empty⟩])
    (hm : x.step env 1 ev = some y) :
    (ev = .complete ∧ y = x.setActor 1 (.buildIndex ⟨0, [], false, false⟩)) ∨
      y.cp.ops = [⟨.finished, ⟨input, 0⟩⟩, ⟨.finished, ⟨[.error .retryable], 0⟩⟩] := by
  simp only [Exec.step, Exec.op?, hops, List.getElem?_cons_succ, List.getElem?_cons_zero] at hm
  cases ev <;> simp [scanAndBuildIndex] at hm <;> subst hm
  · exact .inl ⟨rfl, rfl⟩
  · exact .inr (by simp [Exec.setActor, Exec.send, hops, Stream.send, Stream.empty])

/-- The loop's first state, once the marker is committed. -/
theorem buildIndex_loop_start
    (hops : x.cp.ops = [⟨.finished, ⟨input, 0⟩⟩, ⟨.buildIndex ⟨0, [], false, true⟩, .empty⟩])
    (hact : x.cp.flowControlLock.active = active0) :
    StageInv (fun _ => true) (fun q => .buildIndex ⟨0, q.1, q.2, false⟩) input active0
      (x.setActor 1 (.buildIndex ⟨0, [], false, false⟩)) :=
  ⟨0, [], some ([], false), [], 0, by simp [Exec.setActor, hops, Stream.empty], Nat.zero_le _,
    le_rfl, by simpa using @QueueRun.reading (fun _ => true) [] [], by simp [Exec.setActor, hact]⟩

/-- **Every move keeps `scanAndBuildIndex` in its states.** -/
theorem BuildIndexInv.move (h : BuildIndexInv input active0 x) {c : Choice}
    (hm : x.move env 1 c = some y) : BuildIndexInv input active0 y := by
  rcases h with ⟨hops, hact⟩ | ⟨t, hops⟩ | h
  · cases c with
    | consume => simp [Exec.move, Exec.consume, Exec.peek, Exec.op?, hops, Stream.peek, Stream.empty] at hm
    | step i ev =>
      rcases i with _ | _ | i
      · simp [Exec.move, Exec.step, Exec.op?, hops] at hm
      · rcases buildIndex_marking_step hops hm with ⟨-, rfl⟩ | hy
        · exact .inr (.inr (buildIndex_loop_start hops hact))
        · exact .inr (.inl ⟨0, hy⟩)
      · simp [Exec.move, Exec.step, Exec.op?, hops] at hm
  · cases c with
    | consume => exact .inr (.inl ⟨t + 1, by simp [Exec.consume_ops hm, hops, Stream.pop]⟩)
    | step i ev =>
      rcases i with _ | _ | i <;> simp [Exec.move, Exec.step, Exec.op?, hops] at hm
  · exact .inr (.inr (h.move buildIndex_queueStage hm))

theorem BuildIndexInv.reaches (h : BuildIndexInv input active0 x) (hr : Exec.Reaches env 1 x y) :
    BuildIndexInv input active0 y := by
  induction hr with
  | refl => exact h
  | tail _ hm ih =>
    obtain ⟨c, hc⟩ := hm
    exact ih.move hc

/-- **From every state of `scanAndBuildIndex` that has sent a prefix of what it owes, a run
sends all of it**: the marker's commit first, then the loop's run. -/
theorem BuildIndexInv.produces (h : BuildIndexInv input active0 x)
    (hpre : ∀ out, x.sentAt 1 = some out → out <+: stageOwed (fun _ => true) input) :
    ∃ y, Exec.Reaches env 1 x y ∧ y.sentAt 1 = some (stageOwed (fun _ => true) input) := by
  rcases h with ⟨hops, hact⟩ | ⟨t, hops⟩ | h
  · have hstart := buildIndex_loop_start hops hact
    have hm : x.move env 1 (.step 1 .complete) = some (x.setActor 1 (.buildIndex ⟨0, [], false, false⟩)) := by
      simp [Exec.move, Exec.step, Exec.op?, hops, scanAndBuildIndex]
    obtain ⟨y, hy, hsent⟩ := hstart.produces buildIndex_queueStage buildIndex_queueLive fun out ho =>
      hpre out (by simpa using ho)
    exact ⟨y, .head ⟨_, hm⟩ hy, hsent⟩
  · have hsent : x.sentAt 1 = some [.error .retryable] := by simp [Exec.sentAt, Exec.op?, hops]
    refine ⟨x, .refl, hsent.trans (congrArg some ?_)⟩
    exact (@stageOwed_eq_of_isPrefix (fun _ => true) input [] .retryable (by simpa using hpre _ hsent)).symm
  · exact h.produces buildIndex_queueStage buildIndex_queueLive hpre

end BuildIndex
/-! ## `doInsert` -/

/-- **What `doInsert` sends for the document `d` its insert returned**: scan id `-1` and an
empty scan key. -/
def insertedMsg (d : DocRef) : Msg := .doc ⟨d, -1, []⟩

theorem map_insertedMsg (l : List DocRef) :
    l.map insertedMsg = (l.map fun d => (⟨d, -1, []⟩ : ScanReturned)).map Msg.doc := by
  simp [insertedMsg, Function.comp_def]

/-- **Where `doInsert` over `docs` can be**, with what it has sent: waiting for the metadata; in
its loop or drain with something left to do, the documents sent, those pending and those not
started making up `docs`; finished after all of them and `end_of_stream`; or finished after a
read or an insert failed. -/
inductive InsertRun (docs : List DocRef) : Actor → List Msg → Prop
  | metadata : InsertRun docs (.insert ⟨docs, [], .metadata⟩) []
  | inserting {sent pending rest : List DocRef} : docs = sent ++ pending ++ rest →
      ¬(rest = [] ∧ pending = []) →
      InsertRun docs (.insert ⟨rest, pending, .inserting⟩) (sent.map insertedMsg)
  | ended : InsertRun docs .finished (docs.map insertedMsg ++ [.error .endOfStream])
  | failed {sent rest : List DocRef} : docs = sent ++ rest →
      InsertRun docs .finished (sent.map insertedMsg ++ [.error .retryable])

/-- **The moves `doInsert` needs at most before its output ends**, the consumer's takes aside:
four for each document whose insert has not started, three for each pending one, two for the
metadata read. -/
def insertMoves : Actor → Nat
  | .insert st => 4 * st.docs.length + 3 * st.pending.length + if st.wait = .metadata then 2 else 0
  | _ => 0

section Insert

variable {docs : List DocRef} {x y : Exec} {l : List Msg} {t : Nat}

/-- **`doInsert` at the head of its loop**, as the only operation: it ends its output when
nothing is left, and waits otherwise; the lock is untouched. -/
theorem insertLoop_ops {a : Actor} (hops : x.cp.ops = [⟨a, ⟨l, t⟩⟩]) (st : InsertDocs) :
    (insertLoop x 0 st).cp.ops = (if st.docs = [] ∧ st.pending = [] then
      [⟨.finished, ⟨l ++ [.error .endOfStream], t⟩⟩] else [⟨.insert st, ⟨l, t⟩⟩]) ∧
      (insertLoop x 0 st).cp.flowControlLock = x.cp.flowControlLock := by
  unfold insertLoop
  split <;> simp [Exec.setActor, Exec.send, hops, Stream.send]

/-- `doInsert` is in its loop or has returned. -/
theorem InsertRun.actor {a : Actor} (h : InsertRun docs a l) : (∃ st, a = .insert st) ∨ a = .finished := by
  cases h <;> simp

/-- What `doInsert` has sent while it inserts is a prefix of all it owes. -/
theorem insert_isPrefix {sent rest : List DocRef} (hd : docs = sent ++ rest) :
    sent.map insertedMsg <+: docs.map insertedMsg ++ [.error .endOfStream] := by
  rw [hd, List.map_append, List.append_assoc]
  exact List.prefix_append _ _

/-- **A step of `doInsert`** (the only operation) stays in its states and only appends to its
output; it takes a permit exactly when it starts an insert, needs fewer moves after it, and,
unless it is a failure, keeps the output a prefix of all `doInsert` owes. -/
theorem InsertRun.step {st : InsertDocs} {ev : Event} (hops : x.cp.ops = [⟨.insert st, ⟨l, t⟩⟩])
    (h : InsertRun docs (.insert st) l) (hy : doInsert x 0 st ev = some y) :
    ∃ a ms, y.cp.ops = [⟨a, ⟨l ++ ms, t⟩⟩] ∧ InsertRun docs a (l ++ ms) ∧
      (∀ st', a = .insert st' →
        y.cp.flowControlLock.active + st'.docs.length = x.cp.flowControlLock.active + st.docs.length) ∧
      insertMoves a + ms.length < insertMoves (.insert st) ∧
      (ev ≠ .fail → l ++ ms <+: docs.map insertedMsg ++ [.error .endOfStream]) := by
  generalize ha : Actor.insert st = a at h
  cases h with
  | metadata =>
    cases ha
    cases ev <;> simp only [doInsert, Option.some.injEq, reduceCtorEq] at hy <;> subst hy
    · -- the metadata is read: the loop starts, and ends at once when there is nothing to insert
      obtain ⟨hops', hlock⟩ := insertLoop_ops hops ⟨docs, [], .inserting⟩
      by_cases hd : docs = []
      · subst hd
        exact ⟨.finished, [.error .endOfStream], by simpa using hops', by simpa using @InsertRun.ended [],
          by simp, by simp [insertMoves], fun _ => by simp⟩
      · refine ⟨.insert ⟨docs, [], .inserting⟩, [], by simpa [hd] using hops',
          by simpa using @InsertRun.inserting docs [] [] docs (by simp) (by simp [hd]),
          fun st' hst => ?_, by simp [insertMoves], fun _ => by simp⟩
        cases hst
        rw [hlock]
    · -- the metadata read fails
      exact ⟨.finished, [.error .retryable], by simp [Exec.setActor, Exec.send, hops, Stream.send],
        by simpa using @InsertRun.failed docs [] docs (by simp), by simp, by simp [insertMoves],
        fun h => absurd rfl h⟩
  | inserting hd hne =>
    rename_i sent pending rest
    cases ha
    cases ev <;> simp only [doInsert, reduceCtorEq] at hy
    · -- a permit: the next document's insert starts
      rcases rest with _ | ⟨d, rest⟩
      · cases hy
      simp only at hy
      split at hy <;> simp only [Option.some.injEq, reduceCtorEq] at hy
      subst hy
      have hops0 : (x.takePermit.write (.insert d)).cp.ops =
          [⟨.insert ⟨d :: rest, pending, .inserting⟩, ⟨sent.map insertedMsg, t⟩⟩] := hops
      obtain ⟨hops', hlock⟩ := insertLoop_ops hops0 ⟨rest, pending ++ [d], .inserting⟩
      refine ⟨.insert ⟨rest, pending ++ [d], .inserting⟩, [], by simpa using hops',
        by simpa using @InsertRun.inserting docs sent (pending ++ [d]) rest (by simp [hd]) (by simp),
        fun st' hst => ?_, by simp [insertMoves]; omega,
        fun _ => by simpa using insert_isPrefix (hd.trans (List.append_assoc _ _ _))⟩
      cases hst
      rw [hlock]
      show x.cp.flowControlLock.active + 1 + _ = _
      simp only [List.length_cons]
      push_cast
      omega
    · -- the oldest pending insert completes: its document is sent
      rcases pending with _ | ⟨d, pending⟩
      · cases hy
      simp only [Option.some.injEq] at hy
      subst hy
      have hops' : (x.send 0 (.doc ⟨d, -1, []⟩)).cp.ops =
          [⟨.insert ⟨rest, d :: pending, .inserting⟩, ⟨sent.map insertedMsg ++ [insertedMsg d], t⟩⟩] := by
        simp [Exec.send, hops, Stream.send, insertedMsg]
      obtain ⟨hops'', hlock⟩ := insertLoop_ops hops' ⟨rest, pending, .inserting⟩
      have hd' : docs = (sent ++ [d]) ++ pending ++ rest := by simp [hd]
      by_cases hl : rest = [] ∧ pending = []
      · obtain ⟨rfl, rfl⟩ := hl
        have hend : sent.map insertedMsg ++ [insertedMsg d, .error .endOfStream] =
            docs.map insertedMsg ++ [.error .endOfStream] := by simp [hd]
        exact ⟨.finished, [insertedMsg d, .error .endOfStream], by simpa using hops'', hend ▸ .ended,
          by simp, by simp [insertMoves], fun _ => hend ▸ List.prefix_refl _⟩
      · refine ⟨.insert ⟨rest, pending, .inserting⟩, [insertedMsg d], by simpa [hl] using hops'',
          by simpa using @InsertRun.inserting docs (sent ++ [d]) pending rest hd' hl, fun st' hst => ?_,
          by simp [insertMoves]; omega, fun _ => by simpa using insert_isPrefix (hd'.trans (List.append_assoc _ _ _))⟩
        cases hst
        rw [hlock]
        rfl
    · -- a pending insert fails
      rcases pending with _ | ⟨d, pending⟩
      · cases hy
      simp only [Option.some.injEq] at hy
      subst hy
      exact ⟨.finished, [.error .retryable], by simp [Exec.setActor, Exec.send, hops, Stream.send],
        by simpa using @InsertRun.failed docs sent (d :: pending ++ rest) (by simp [hd]), by simp,
        by simp [insertMoves]; omega, fun h => absurd rfl h⟩
  | ended => cases ha
  | failed => cases ha

/-- While `doInsert` runs, its output holds documents only. -/
theorem InsertRun.doc_of_mem {st : InsertDocs} {m : Msg} (h : InsertRun docs (.insert st) l)
    (hm : m ∈ l) : ∃ d, m = insertedMsg d := by
  generalize ha : Actor.insert st = a at h
  cases h with
  | metadata => simp at hm
  | inserting =>
    obtain ⟨d, -, rfl⟩ := List.mem_map.1 hm
    exact ⟨d, rfl⟩
  | ended | failed => cases ha

/-- **What `doInsert` has sent**: the documents of a prefix of `docs`, in list order, then
possibly the error that ended its output, `end_of_stream` only after all of them. -/
theorem InsertRun.sent {a : Actor} (h : InsertRun docs a l) :
    ∃ n ending, l = (docs.take n).map insertedMsg ++ (ending.map .error).toList ∧
      (ending = some .endOfStream → n = docs.length) := by
  cases h with
  | metadata => exact ⟨0, none, by simp, by simp⟩
  | inserting hd _ =>
    rename_i sent _ _ _
    exact ⟨sent.length, none, by rw [hd, List.append_assoc, List.take_left]; simp, by simp⟩
  | ended => exact ⟨docs.length, some .endOfStream, by simp, fun _ => rfl⟩
  | failed hd =>
    rename_i sent _
    exact ⟨sent.length, some .retryable, by simp [hd], by simp⟩

/-- **Every reachable state of `InsertPlan`**, executed on a checkpoint with no operations, is
one of `InsertRun`'s, its output being operation `0`; while `doInsert` runs, the permits taken
are those of the inserts it started less those of the documents its consumer took. -/
theorem insertRun_of_reachable {cp : PlanCheckpoint} (hcp : cp.ops = []) {root : Nat}
    (hx : Reachable env (.insert docs) cp x root) :
    root = 0 ∧ ∃ a l t, x.cp.ops = [⟨a, ⟨l, t⟩⟩] ∧ t ≤ l.length ∧ InsertRun docs a l ∧
      ∀ st, a = .insert st →
        x.cp.flowControlLock.active + t + st.docs.length = cp.flowControlLock.active + docs.length := by
  induction hx with
  | start h =>
    simp only [Exec.start, Plan.execute, Option.pure_def, Option.map_some', Option.some.injEq,
      Prod.ext_iff] at h
    obtain ⟨rfl, rfl⟩ := h
    refine ⟨by simp [hcp], _, _, 0, by simp [hcp, Stream.empty], Nat.zero_le _, .metadata, fun st hst => ?_⟩
    cases hst
    simp [PlanCheckpoint.register, PlanCheckpoint.addOperation]
  | move c _ hm ih =>
    obtain ⟨rfl, a, l, t, hops, ht, hrun, hlock⟩ := ih
    refine ⟨rfl, ?_⟩
    cases c with
    | consume =>
      obtain ⟨m, hl, hops', hact⟩ := consume_only hops hm
      refine ⟨a, l, t + 1, hops', (List.getElem?_eq_some_iff.1 hl).1, hrun, fun st hst => ?_⟩
      subst hst
      obtain ⟨d, rfl⟩ := hrun.doc_of_mem (List.getElem?_mem hl)
      have := hlock st rfl
      simp only [hact, insertedMsg, docsOf_cons_doc, docsOf_nil, List.length_singleton] at this ⊢
      push_cast
      omega
    | step i ev =>
      rcases i with _ | i <;> simp only [Exec.move, Exec.step, Exec.op?, hops, List.getElem?_cons_zero,
        List.getElem?_cons_succ, List.getElem?_nil, reduceCtorEq] at hm
      rcases hrun.actor with ⟨st, rfl⟩ | rfl
      · obtain ⟨a, ms, hy, hrun', hact, -⟩ := InsertRun.step hops hrun hm
        refine ⟨a, _, t, hy, by simp; omega, hrun', fun st' hst => ?_⟩
        have := hlock st rfl
        have := hact st' hst
        omega
      · cases hm

/-- **`doInsert` that can still send all it owes**: in its states, its output a prefix of all
its documents then `end_of_stream`, the lock back to no permit taken once its consumer has
taken everything; `n` counts the moves it needs at most. -/
def InsertProgress (docs : List DocRef) (n : Nat) (x : Exec) : Prop :=
  ∃ a l t, x.cp.ops = [⟨a, ⟨l, t⟩⟩] ∧ t ≤ l.length ∧ InsertRun docs a l ∧
    l <+: docs.map insertedMsg ++ [.error .endOfStream] ∧
    (∀ st, a = .insert st → x.cp.flowControlLock.active + t + st.docs.length = docs.length) ∧
    n = insertMoves a + (l.length - t)

/-- **One move towards all `doInsert` owes**: it has sent it, or completing the metadata read or
the oldest insert, letting the consumer take a document, or starting the next insert once the
consumer has taken everything keeps it able to, with fewer moves left. -/
theorem InsertProgress.step {n : Nat} (h : InsertProgress docs n x) :
    x.sentAt 0 = some (docs.map insertedMsg ++ [.error .endOfStream]) ∨
      ∃ m y, (∃ c, x.move env 0 c = some y) ∧ InsertProgress docs m y ∧ m < n := by
  obtain ⟨a, l, t, hops, ht, hrun, hpre, hlock, rfl⟩ := h
  have advance : ∀ st ev y, a = .insert st → doInsert x 0 st ev = some y → ev ≠ .fail →
      ∃ m y, (∃ c, x.move env 0 c = some y) ∧ InsertProgress docs m y ∧ m < insertMoves a + (l.length - t) := by
    rintro st ev y rfl hy hev
    obtain ⟨a', ms, hops', hrun', hact, hlt, howed⟩ := InsertRun.step hops hrun hy
    refine ⟨_, y, ⟨.step 0 ev, by simpa [Exec.move, Exec.step, Exec.op?, hops] using hy⟩,
      ⟨a', l ++ ms, t, hops', by simp; omega, hrun', howed hev, fun st' hst => ?_, rfl⟩, ?_⟩
    · have := hlock st rfl
      have := hact st' hst
      omega
    · simp only [List.length_append]
      omega
  cases hrun with
  | metadata => exact .inr (advance _ .complete _ rfl rfl (by decide))
  | inserting hd hne =>
    rename_i sent pending rest
    rcases pending with _ | ⟨d, pending⟩
    · obtain ⟨d, rest, rfl⟩ := List.exists_cons_of_ne_nil fun hr => hne ⟨hr, rfl⟩
      by_cases htl : t < (sent.map insertedMsg).length
      · -- the consumer takes the next document
        have hts : t < sent.length := by simpa using htl
        obtain ⟨d, hd'⟩ : ∃ d, (sent.map insertedMsg)[t]? = some (insertedMsg d) :=
          ⟨sent.get ⟨t, hts⟩, by simp [hts]⟩
        obtain ⟨y, hy⟩ : ∃ y, x.consume 0 = some y :=
          ⟨(x.popInput 0).releasePermit, by
            simp [Exec.consume, Exec.peek, Exec.op?, hops, Stream.peek, hd', insertedMsg]⟩
        obtain ⟨m, hl, hops', hact⟩ := consume_only hops hy
        rw [hd', Option.some.injEq] at hl
        subst hl
        refine .inr ⟨_, y, ⟨.consume, hy⟩, ⟨_, _, t + 1, hops', htl, .inserting hd hne, hpre,
          fun st hst => ?_, rfl⟩, by omega⟩
        have := hlock st hst
        simp only [hact, insertedMsg, docsOf_cons_doc, docsOf_nil, List.length_singleton]
        push_cast
        omega
      · -- everything sent has been taken, so no permit is held and the next insert starts
        have hact : x.cp.flowControlLock.active = 0 := by
          have hts : sent.length ≤ t := by simpa using htl
          have ht' : t ≤ sent.length := by simpa using ht
          have := hlock _ rfl
          simp only [hd, List.length_append, List.length_nil, List.length_cons] at this
          push_cast at this
          omega
        exact .inr (advance _ .input (insertLoop (x.takePermit.write (.insert d)) 0 ⟨rest, [d], .inserting⟩) rfl
          (by simp [doInsert, Exec.canTake, FlowControlLock.canTake, hact]) (by decide))
    · exact .inr (advance _ .complete _ rfl rfl (by decide))
  | ended => exact .inl (by simp [Exec.sentAt, Exec.op?, hops])
  | failed =>
    rw [map_insertedMsg, map_insertedMsg] at hpre
    exact absurd (eq_of_docs_error_isPrefix hpre).2 (by decide)

end Insert

/-! ## The head-of-queue stages -/

/-- **The head-of-queue stages emit in input order and lose nothing**, for every input and
every run, so whatever order their futures complete in:
* a head-of-queue actor of each kind (`doFilter`, `deduplicateIndexStream`, `doProject`,
  `doFlushChanges`) has sent what it owes its input under its own decision, and has given a
  permit back for each document it dropped, the others coming back from its consumer; and from
  every state whose output is a prefix of `stageOwed` (no future it waited on has failed), a
  run sends all of `stageOwed`: every passing document of the input, in input order, each once,
  then the input's end;
* `scanAndBuildIndex`, with or without its marker wait, the same, every document passing;
* `doInsert` has sent the documents of a prefix of its list, in list order, each under scan id
  `-1`, and has ended its output with `end_of_stream` only after all of them; on a lock with no
  permit taken, from every state whose output is a prefix of all of them then `end_of_stream`,
  a run sends exactly that. -/
theorem headOfQueue_emits_in_order (env : Env) :
    (∀ (kind : QueueKind) (cp : PlanCheckpoint) (input : List Msg) (y : Exec),
      Exec.Reaches env 1 (stageExec cp (.headQueue kind ⟨0, [], false⟩) input) y →
      (∃ ds out t1, y.sentAt 1 = some out ∧ y.takenAt 1 = some t1 ∧
        StageOutput (kind.passes env) input ds out ∧
        cp.flowControlLock.active = y.cp.flowControlLock.active +
          ((ds.filter (!kind.passes env ·)).length + (docsOf (out.take t1)).length)) ∧
      ((∀ out, y.sentAt 1 = some out → out <+: stageOwed (kind.passes env) input) →
        ∃ z, Exec.Reaches env 1 y z ∧ z.sentAt 1 = some (stageOwed (kind.passes env) input))) ∧
    (∀ (cp : PlanCheckpoint) (input : List Msg) (marking : Bool) (y : Exec),
      Exec.Reaches env 1 (stageExec cp (.buildIndex ⟨0, [], false, marking⟩) input) y →
      (∃ ds out, y.sentAt 1 = some out ∧ StageOutput (fun _ => true) input ds out) ∧
      ((∀ out, y.sentAt 1 = some out → out <+: stageOwed (fun _ => true) input) →
        ∃ z, Exec.Reaches env 1 y z ∧ z.sentAt 1 = some (stageOwed (fun _ => true) input))) ∧
    (∀ (docs : List DocRef) (cp : PlanCheckpoint) (x : Exec) (root : Nat), cp.ops = [] →
      Reachable env (.insert docs) cp x root →
      (∃ n ending, x.sentAt root = some ((docs.take n).map insertedMsg ++ (ending.map .error).toList) ∧
        (ending = some .endOfStream → n = docs.length)) ∧
      (cp.flowControlLock.active = 0 →
        (∀ out, x.sentAt root = some out → out <+: docs.map insertedMsg ++ [.error .endOfStream]) →
        ∃ z, Exec.Reaches env root x z ∧
          z.sentAt root = some (docs.map insertedMsg ++ [.error .endOfStream]))) := by
  refine ⟨fun kind cp input y hr => ?_, fun cp input marking y hr => ?_, fun docs cp x root hcp hx => ?_⟩
  · have h0 : StageInv (kind.passes env) (fun q => .headQueue kind ⟨0, q.1, q.2⟩) input
        cp.flowControlLock.active (stageExec cp (.headQueue kind ⟨0, [], false⟩) input) := stageInv_start cp
    have hy := h0.reaches (headQueue_queueStage kind) hr
    refine ⟨?_, hy.produces (headQueue_queueStage kind) (headQueue_queueLive kind)⟩
    obtain ⟨t0, ds, s, out, t1, hops, -, -, hrun, hlock⟩ := hy
    exact ⟨ds, out, t1, by simp [Exec.sentAt, Exec.op?, hops], by simp [Exec.takenAt, Exec.op?, hops],
      hrun.stageOutput, hlock⟩
  · have h0 : BuildIndexInv input cp.flowControlLock.active
        (stageExec cp (.buildIndex ⟨0, [], false, marking⟩) input) := by
      cases marking
      · exact .inr (.inr (stageInv_start cp))
      · exact .inl ⟨rfl, rfl⟩
    have hy := h0.reaches hr
    refine ⟨?_, hy.produces⟩
    rcases hy with ⟨hops, -⟩ | ⟨t, hops⟩ | ⟨t0, ds, s, out, t1, hops, -, -, hrun, -⟩
    · exact ⟨[], [], by simp [Exec.sentAt, Exec.op?, hops, Stream.empty],
        .deciding (show input = ([] : List ScanReturned).map Msg.doc ++ input by simp)⟩
    · exact ⟨[], [.error .retryable], by simp [Exec.sentAt, Exec.op?, hops],
        .aborted (show input = ([] : List ScanReturned).map Msg.doc ++ input by simp)⟩
    · exact ⟨ds, out, by simp [Exec.sentAt, Exec.op?, hops], hrun.stageOutput⟩
  · obtain ⟨rfl, a, l, t, hops, ht, hrun, hlock⟩ := insertRun_of_reachable hcp hx
    refine ⟨?_, fun hact hpre => ?_⟩
    · obtain ⟨n, ending, rfl, hend⟩ := hrun.sent
      exact ⟨n, ending, by simp [Exec.sentAt, Exec.op?, hops], hend⟩
    · exact Exec.reaches_of_measure (InsertProgress docs) _ (fun _ _ h => h.step) _ x
        ⟨a, l, t, hops, ht, hrun, hpre l (by simp [Exec.sentAt, Exec.op?, hops]),
          fun st hst => by simpa [hact] using hlock st hst, rfl⟩

/-- A collection whose predicate holds of the document `[1]` only. -/
def firstDocEnv : Env :=
  ⟨[], fun _ => [], id, id, fun _ d => d == .stored [1], fun _ _ => [], [], List.sorted_nil,
    fun _ => List.sorted_nil⟩

/-- **`doFilter` over two documents then `end_of_stream`**, from its start, has a run that sends
the one that passes, then `end_of_stream`. -/
theorem filter_twoDocs_sends_passing :
    ∃ z, Exec.Reaches firstDocEnv 1 (stageExec (PlanCheckpoint.new 10) (.headQueue (.filter .all) ⟨0, [], false⟩)
        [.doc ⟨.stored [1], 0, [1]⟩, .doc ⟨.stored [2], 0, [2]⟩, .error .endOfStream]) z ∧
      z.sentAt 1 = some [.doc ⟨.stored [1], 0, [1]⟩, .error .endOfStream] := by
  obtain ⟨z, hz, hsent⟩ := ((headOfQueue_emits_in_order firstDocEnv).1 (.filter .all) (PlanCheckpoint.new 10) _ _
    .refl).2 fun out h => by
      simp only [stageExec, Exec.sentAt, Exec.op?, Stream.empty] at h
      cases h
      exact List.nil_prefix
  exact ⟨z, hz, hsent.trans rfl⟩

end DocLayer
