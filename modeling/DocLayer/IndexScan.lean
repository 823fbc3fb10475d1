import DocLayer.LastEntry
import DocLayer.Execute
import DocLayer.Run
import DocLayer.Stages

/-! # What an index scan emits

`IndexScanPlan::execute` registers `toDocInfo` over the index entries in the scan range and,
except on the single-field point path `begin == end`, `deduplicateIndexStream` behind it.
Every run of the pipeline emits documents of the range's entries, in entry order, that pass
the would-be-last test, and a run that completes emits all of them; with the results of
`DocLayer.LastEntry`, each document is then emitted at most once, exactly once when the run
completes, at its greatest entry in the range. From every state in which nothing failed, on a
lock with no permit taken, a run completes.

* **`DocInfoRun`** — what `toDocInfo` over the entries `ks` has sent in each of its states;
  `docInfoOwed` is all it owes.
* **`DedupScanInv`** — the pipeline with the dedup stage, with the permits it holds; on the
  point path `toDocInfo` runs alone (`docInfo_soleProducer`). `dedupScanInv_of_reachable` and
  `pointScanInv_of_reachable` are the run lemmas.
* **`DedupProgress`** — the dedup pipeline when nothing has failed; its step lemma gives a
  completing run from every such state.
* **`IndexHolds`** — the index holds exactly the entries `w ++ pk` of every document.
* **`indexScan_emits_last_entry`** — every run of `IndexScanPlan` emits each document at most
  once, at its greatest entry in the range, or never when it has none; a completed run emits
  it exactly once; and a run completes from every state in which nothing failed. -/

namespace DocLayer

variable {env : Env}

/-- **The document `toDocInfo` of scan `s` makes of the index entry `k`**: the sub-context of
the entry's last item, the primary key, tagged with the entry. -/
def entryDoc (env : Env) (s : Nat) (k : Key) : ScanReturned := ⟨.stored (env.lastItem k), s, k⟩

/-! ## `toDocInfo` -/

/-- **Where `toDocInfo` of scan `s` over the entries `ks` can be**, with the messages it has
sent: reading, having sent the documents of the first entries `c` (holding the next one
while it waits for a permit); finished after all of them and `end_of_stream`; or finished
after a read failed. -/
inductive DocInfoRun (env : Env) (s : Nat) (ks : List Key) : Actor → List Msg → Prop
  | reading {c kvs : List Key} {lastKey : Key} {w : ReadWait} : ks = c ++ w.pending ++ kvs →
      DocInfoRun env s ks (.docInfo ⟨s, kvs, lastKey, w⟩) ((c.map (entryDoc env s)).map .doc)
  | ended :
      DocInfoRun env s ks .finished ((ks.map (entryDoc env s)).map .doc ++ [.error .endOfStream])
  | failed {c kvs : List Key} : ks = c ++ kvs →
      DocInfoRun env s ks .finished ((c.map (entryDoc env s)).map .doc ++ [.error .retryable])

/-- **Everything `toDocInfo` of scan `s` over the entries `ks` owes**: their documents, in
entry order, then `end_of_stream`. -/
def docInfoOwed (env : Env) (s : Nat) (ks : List Key) : List Msg :=
  (ks.map (entryDoc env s)).map .doc ++ [.error .endOfStream]

/-- **The moves `toDocInfo` needs at most before its output ends**, four more counted for each
message it sends: nine for each entry it has not read, five for the one it holds, five for
`end_of_stream`. -/
def docInfoMoves : Actor → Nat
  | .docInfo st => 9 * st.kvs.length + 5 * st.wait.pending.length + 5
  | _ => 0

section DocInfo

variable {s : Nat} {ks : List Key} {x y : Exec} {l : List Msg} {t : Nat}

theorem docInfo_isPrefix {c r : List Key} (h : ks = c ++ r) :
    (c.map (entryDoc env s)).map Msg.doc <+: docInfoOwed env s ks := by
  rw [docInfoOwed, h, List.map_append, List.map_append, List.append_assoc]
  exact List.prefix_append _ _

/-- **A step of `toDocInfo`** (operation `0`) stays in its states, only appends to its output
and takes nothing from any stream; it takes a permit with each document it sends, needs fewer
moves after it, and, unless its read failed, keeps its output a prefix of what it owes. -/
theorem DocInfoRun.step {st : DocInfo} {rest : List Op} {ev : Event}
    (hops : x.cp.ops = ⟨.docInfo st, ⟨l, t⟩⟩ :: rest)
    (h : DocInfoRun env s ks (.docInfo st) l) (hy : toDocInfo env x 0 st ev = some y) :
    ∃ a ms, y.cp.ops = ⟨a, ⟨l ++ ms, t⟩⟩ :: rest ∧ DocInfoRun env s ks a (l ++ ms) ∧
      y.cp.flowControlLock.active = x.cp.flowControlLock.active + (docsOf ms).length ∧
      docInfoMoves a + 4 * ms.length < docInfoMoves (.docInfo st) ∧
      (ev ≠ .fail → l ++ ms <+: docInfoOwed env s ks) := by
  generalize hst : Actor.docInfo st = a at h
  cases h with
  | reading hks =>
    rename_i c kvs lastKey w
    cases hst
    cases ev <;> simp only [toDocInfo] at hy
    · -- the range read delivers its next key, or ends
      rcases w with _ | k <;> rcases kvs with _ | ⟨k, kvs⟩ <;>
        simp only [Option.some.injEq, reduceCtorEq] at hy <;> subst hy
      · have hall : (c.map (entryDoc env s)).map Msg.doc ++ [.error .endOfStream] = docInfoOwed env s ks := by
          simp [docInfoOwed, hks, ReadWait.pending]
        refine ⟨.finished, [.error .endOfStream], by simp [Exec.setActor, Exec.send, hops, Stream.send],
          hall ▸ .ended, by simp [Exec.setActor, Exec.send], by simp [docInfoMoves, ReadWait.pending],
          fun _ => hall ▸ List.prefix_refl _⟩
      · refine ⟨.docInfo ⟨s, kvs, lastKey, .permit k⟩, [], by simp [Exec.setActor, hops], ?_,
          by simp [Exec.setActor], by simp [docInfoMoves, ReadWait.pending]; omega,
          fun _ => by rw [List.append_nil]; exact docInfo_isPrefix (hks.trans (List.append_assoc _ _ _))⟩
        simpa using @DocInfoRun.reading env s ks c kvs lastKey (.permit k)
          (by simpa [ReadWait.pending] using hks)
    · cases hy
    · -- the permit: the document of the held key is sent
      rcases w with _ | k <;> simp only [reduceCtorEq] at hy
      split at hy <;> simp only [Option.some.injEq, reduceCtorEq] at hy
      subst hy
      have hks' : ks = (c ++ [k]) ++ ReadWait.nextKey.pending ++ kvs := by
        simpa [ReadWait.pending] using hks
      refine ⟨.docInfo ⟨s, kvs, k, .nextKey⟩, [.doc (entryDoc env s k)], by
        simp [Exec.setActor, Exec.send, Exec.takePermit, hops, Stream.send, entryDoc], ?_,
        by simp [Exec.setActor, Exec.send, Exec.takePermit], by simp [docInfoMoves, ReadWait.pending],
        fun _ => by simpa using docInfo_isPrefix (hks'.trans (List.append_assoc _ _ _))⟩
      simpa using @DocInfoRun.reading env s ks (c ++ [k]) kvs k .nextKey hks'
    · -- the read fails
      rcases w with _ | k <;> simp only [Option.some.injEq, reduceCtorEq] at hy
      subst hy
      exact ⟨.finished, [.error .retryable], by simp [Exec.setActor, Exec.send, hops, Stream.send],
        .failed (by simpa [ReadWait.pending] using hks), by simp [Exec.setActor, Exec.send],
        by simp [docInfoMoves, ReadWait.pending], fun h => absurd rfl h⟩
  | ended => cases hst
  | failed => cases hst

/-- **`toDocInfo` can always go on** while it reads: it reads the next entry or ends, and it
sends the held one when a permit is free. -/
theorem toDocInfo_live (env : Env) (st : DocInfo) (hcan : st.wait = .nextKey ∨ x.canTake = true) :
    ∃ ev, ev ≠ .fail ∧ ∃ y, toDocInfo env x 0 st ev = some y := by
  rcases st with ⟨sid, kvs, lastKey, _ | k⟩
  · refine ⟨.input, by decide, Option.isSome_iff_exists.1 ?_⟩
    cases kvs <;> rfl
  · refine ⟨.complete, by decide, Option.isSome_iff_exists.1 ?_⟩
    simp [toDocInfo, hcan.resolve_left (by simp)]

/-- What `toDocInfo` has sent while it reads is documents only, those of a prefix of the
entries. -/
theorem DocInfoRun.docs_prefix {a : Actor} (h : DocInfoRun env s ks a l) :
    docsOf l <+: ks.map (entryDoc env s) := by
  cases h with
  | reading hks =>
    rename_i c _ _ _
    rw [docsOf_map_doc, hks, List.append_assoc, List.map_append]
    exact List.prefix_append _ _
  | ended =>
    rw [docsOf_append, docsOf_map_doc]
    simp
  | failed hks =>
    rename_i c _
    simp only [docsOf_append, docsOf_map_doc, docsOf_cons_error, docsOf_nil, List.append_nil, hks,
      List.map_append]
    exact List.prefix_append _ _

/-- **`toDocInfo` that has not failed has sent a prefix of what it owes.** -/
theorem DocInfoRun.isPrefix_owed {a : Actor} (h : DocInfoRun env s ks a l)
    (hf : l.any Msg.isFailure = false) : l <+: docInfoOwed env s ks := by
  cases h with
  | reading hks => exact docInfo_isPrefix (hks.trans (List.append_assoc _ _ _))
  | ended => exact List.prefix_refl _
  | failed => simp [Msg.isFailure] at hf

/-- **`toDocInfo` alone produces all it owes.** -/
theorem docInfo_soleProducer : SoleProducer env (DocInfoRun env s ks) (docInfoOwed env s ks) docInfoMoves where
  step hops h hy := by
    cases h with
    | reading hks =>
      obtain ⟨a, ms, hops', hrun, hact, hlt, howed⟩ :=
        DocInfoRun.step hops (.reading hks) (by simpa [Exec.step, Exec.op?, hops] using hy)
      exact ⟨a, ms, hops', hrun, hact, by omega, howed⟩
    | ended | failed => simp [Exec.step, Exec.op?, hops] at hy
  isPrefix h hf := h.isPrefix_owed hf
  live hops h hpre hcan := by
    cases h with
    | reading =>
      obtain ⟨ev, hev, y, hy⟩ := toDocInfo_live env _ (.inr hcan)
      exact .inr ⟨ev, hev, y, by simpa [Exec.step, Exec.op?, hops] using hy⟩
    | ended => exact .inl rfl
    | failed => exact absurd (eq_of_docs_error_isPrefix hpre).2 (by decide)

end DocInfo

/-! ## The two pipelines -/

/-- **The index scan with its dedup stage**: `toDocInfo` (operation `0`) over the entries `ks`
of scan `s`, and `deduplicateIndexStream` (operation `1`) with the upper bound `hi` where
`QueueRun` says, over the messages it took from it. The lock had `active0` permits taken; it
took one for each document `toDocInfo` sent, and got one back for each the stage dropped and
each its consumer took. -/
def DedupScanInv (env : Env) (index : IndexInfo) (hi : Key) (s : Nat) (ks : List Key)
    (active0 : Int) (x : Exec) : Prop :=
  ∃ a0 l0 t0 ds q l1 t1,
    x.cp.ops = [⟨a0, ⟨l0, t0⟩⟩, ⟨q.elim .finished fun q => .headQueue (.dedup index hi) ⟨0, q.1, q.2⟩,
      ⟨l1, t1⟩⟩] ∧
    t0 ≤ l0.length ∧ t1 ≤ l1.length ∧ DocInfoRun env s ks a0 l0 ∧
    QueueRun ((QueueKind.dedup index hi).passes env) (l0.take t0) ds q l1 ∧
    x.cp.flowControlLock.active + ((ds.filter (!(QueueKind.dedup index hi).passes env ·)).length +
      (docsOf (l1.take t1)).length) = active0 + (docsOf l0).length

section Start

variable {cp : PlanCheckpoint} {index : IndexInfo} {begin end_ : Option Key} {lo hi : Key}
  {x : Exec} {root : Nat}

/-- **What `IndexScanPlan::execute` registers** on a checkpoint with no operations: `toDocInfo`
over the entries in the scan range, then the dedup stage unless on the point path. -/
theorem indexScan_start (hcp : cp.ops = [])
    (hr : scanRange begin end_ (cp.getBounds cp.scansAdded) = some (lo, hi))
    (hs : Exec.start env (.indexScan index begin end_) cp = some (x, root)) :
    if begin.isSome ∧ begin = end_ ∧ index.size = 1 then
      SoleInv (DocInfoRun env cp.scansAdded (getDescendants (env.indexEntries index) lo hi))
        cp.flowControlLock.active x ∧ root = 0
    else DedupScanInv env index hi cp.scansAdded (getDescendants (env.indexEntries index) lo hi)
        cp.flowControlLock.active x ∧ root = 1 := by
  simp only [Exec.start, Plan.execute, PlanCheckpoint.getBounds_addScan, PlanCheckpoint.addScan_id, hr,
    Option.bind_eq_bind, Option.some_bind, Option.map_eq_some'] at hs
  obtain ⟨a, ha, hx⟩ := hs
  simp only [Prod.ext_iff] at hx
  obtain ⟨rfl, rfl⟩ := hx
  split_ifs at ha ⊢ <;> simp only [Option.pure_def, Option.some.injEq] at ha <;> subst ha
  all_goals
    have hread := @DocInfoRun.reading env cp.scansAdded (getDescendants (env.indexEntries index) lo hi) []
      (getDescendants (env.indexEntries index) lo hi) [] .nextKey (by simp [ReadWait.pending])
  · exact ⟨⟨_, _, 0, by simp [hcp, Stream.empty], Nat.zero_le _, hread,
      by simp [PlanCheckpoint.register, PlanCheckpoint.addOperation, PlanCheckpoint.addScan]⟩, by simp [hcp]⟩
  · exact ⟨⟨_, _, 0, [], some ([], false), [], 0, by simp [hcp, Stream.empty], Nat.zero_le _, Nat.zero_le _, hread,
      by simpa using @QueueRun.reading ((QueueKind.dedup index hi).passes env) [] [],
      by simp [PlanCheckpoint.register, PlanCheckpoint.addOperation, PlanCheckpoint.addScan]⟩, by simp [hcp]⟩

end Start

section Runs

variable {index : IndexInfo} {hi : Key} {s : Nat} {ks : List Key} {active0 : Int} {x y : Exec} {c : Choice}

/-- **Every move keeps the dedup pipeline in its states.** -/
theorem DedupScanInv.move (h : DedupScanInv env index hi s ks active0 x) (hm : x.move env 1 c = some y) :
    DedupScanInv env index hi s ks active0 y := by
  obtain ⟨a0, l0, t0, ds, q, l1, t1, hops, ht0, ht1, h0, h1, hlock⟩ := h
  cases c with
  | consume =>
    obtain ⟨hlt, hops', hact⟩ := consume_stage hops hm
    exact ⟨a0, l0, t0, ds, q, l1, t1 + 1, hops', ht0, hlt, h0, h1, by omega⟩
  | step i ev =>
    rcases i with _ | _ | i <;> simp only [Exec.move, Exec.step, Exec.op?, hops,
      List.getElem?_cons_zero, List.getElem?_cons_succ, List.getElem?_nil] at hm
    · -- `toDocInfo` steps
      cases h0 with
      | reading hks =>
        obtain ⟨a, ms, hy, hrun, hact, -⟩ := DocInfoRun.step hops (.reading hks) hm
        refine ⟨a, _, t0, ds, q, l1, t1, hy, by rw [List.length_append]; omega, ht1, hrun,
          by rwa [List.take_append_of_le_length ht0], ?_⟩
        rw [hact, docsOf_append, List.length_append]
        push_cast
        omega
      | ended | failed => cases hm
    · -- the dedup stage steps
      rcases q with _ | ⟨fut, ended⟩
      · cases hm
      have ho : x.op? 1 = some ⟨.headQueue (.dedup index hi) ⟨0, fut, ended⟩, ⟨l1, t1⟩⟩ := by
        simp [Exec.op?, hops]
      have hops1 : x.cp.ops = [⟨a0, ⟨l0, t0⟩⟩, ⟨(fun q : List ScanReturned × Bool =>
          Actor.headQueue (.dedup index hi) ⟨0, q.1, q.2⟩) (fut, ended), ⟨l1, t1⟩⟩] := hops
      obtain ⟨t0', ds', q', ms, hops', ht0', hrun', hact, -⟩ :=
        QueueRun.queueMove hops1 ht0 h1
          (headQueueStep_queueMove (by simpa only [Exec.step, ho, headQueueActor_eq] using hm))
      refine ⟨a0, l0, t0', ds', q', l1 ++ ms, t1, hops', ht0', by simp; omega, h0, hrun', ?_⟩
      rw [List.take_append_of_le_length ht1]
      omega
    · cases hm

end Runs

section Reachable

variable {cp : PlanCheckpoint} {index : IndexInfo} {begin end_ : Option Key} {lo hi : Key}
  {x : Exec} {root : Nat}

/-- **Every reachable state of an index scan off the point path is one of the dedup
pipeline's**, its output being operation `1`. -/
theorem dedupScanInv_of_reachable (hcp : cp.ops = [])
    (hr : scanRange begin end_ (cp.getBounds cp.scansAdded) = some (lo, hi))
    (hpath : ¬(begin.isSome ∧ begin = end_ ∧ index.size = 1))
    (hx : Reachable env (.indexScan index begin end_) cp x root) :
    root = 1 ∧ DedupScanInv env index hi cp.scansAdded (getDescendants (env.indexEntries index) lo hi)
      cp.flowControlLock.active x := by
  induction hx with
  | start h =>
    have := indexScan_start hcp hr h
    rw [if_neg hpath] at this
    exact this.symm
  | move c _ hm ih =>
    obtain ⟨rfl, hinv⟩ := ih
    exact ⟨rfl, hinv.move hm⟩

/-- **Every reachable state of an index scan on the point path is one of `toDocInfo`'s**, its
output being operation `0`. -/
theorem pointScanInv_of_reachable (hcp : cp.ops = [])
    (hr : scanRange begin end_ (cp.getBounds cp.scansAdded) = some (lo, hi))
    (hpath : begin.isSome ∧ begin = end_ ∧ index.size = 1)
    (hx : Reachable env (.indexScan index begin end_) cp x root) :
    root = 0 ∧ SoleInv (DocInfoRun env cp.scansAdded (getDescendants (env.indexEntries index) lo hi))
      cp.flowControlLock.active x := by
  induction hx with
  | start h =>
    have := indexScan_start hcp hr h
    rw [if_pos hpath] at this
    exact this.symm
  | move c _ hm ih =>
    obtain ⟨rfl, hinv⟩ := ih
    exact ⟨rfl, hinv.move docInfo_soleProducer hm⟩

end Reachable

/-! ## What the pipelines emit -/

section Emitted

variable {index : IndexInfo} {hi : Key} {s : Nat} {ks : List Key} {active0 : Int} {x : Exec}

/-- **The dedup pipeline has emitted documents of entries that pass the test**, in entry order:
a prefix of all of them, and all of them once the run has completed. -/
theorem DedupScanInv.delivered (h : DedupScanInv env index hi s ks active0 x) :
    x.delivered 1 <+: (ks.map (entryDoc env s)).filter ((QueueKind.dedup index hi).passes env) ∧
      (x.completed 1 = true →
        x.delivered 1 = (ks.map (entryDoc env s)).filter ((QueueKind.dedup index hi).passes env)) := by
  obtain ⟨a0, l0, t0, ds, q, l1, t1, hops, -, -, h0, h1, -⟩ := h
  have hdel : x.delivered 1 = docsOf l1 := by
    simp [Exec.delivered, Exec.op?, hops, Stream.docs, docsOf]
  have hcomp : x.completed 1 = l1.contains (.error .endOfStream) := by
    simp [Exec.completed, Exec.op?, hops]
  have hpre := List.take_prefix t0 l0
  generalize l0.take t0 = M at h1 hpre
  have hds : ds <+: ks.map (entryDoc env s) := by
    refine List.IsPrefix.trans ?_ h0.docs_prefix
    have hM : docsOf M <+: docsOf l0 := by
      obtain ⟨r, rfl⟩ := hpre
      rw [docsOf_append]
      exact List.prefix_append _ _
    refine List.IsPrefix.trans ?_ hM
    cases h1 <;> simp
  have hfilter := hds.filter ((QueueKind.dedup index hi).passes env)
  cases h1 with
  | reading | draining => exact ⟨by simpa [hdel] using hfilter, fun hc => by simp [hcomp] at hc⟩
  | failed he =>
    refine ⟨by simpa [hdel] using hfilter, fun hc => ?_⟩
    simp [hcomp] at hc
    exact absurd hc.symm he
  | aborted => exact ⟨by simpa [hdel] using hfilter, fun hc => by simp [hcomp] at hc⟩
  | ended =>
    refine ⟨by simpa [hdel] using hfilter, fun _ => ?_⟩
    rename_i ds
    cases h0 with
    | reading => exact absurd hpre not_docs_error_prefix_docs
    | ended =>
      obtain ⟨rfl, -⟩ := eq_of_docs_error_isPrefix hpre
      simp [hdel]
    | failed => exact absurd (eq_of_docs_error_isPrefix hpre).2 (by simp)

/-- **The point scan has emitted documents of the entries in its range**, in entry order: a
prefix of all of them, and all of them once the run has completed. -/
theorem SoleInv.delivered_docInfo (h : SoleInv (DocInfoRun env s ks) active0 x) :
    x.delivered 0 <+: ks.map (entryDoc env s) ∧
      (x.completed 0 = true → x.delivered 0 = ks.map (entryDoc env s)) := by
  obtain ⟨a0, l0, t0, hops, -, h0, -⟩ := h
  have hdel : x.delivered 0 = docsOf l0 := by
    simp [Exec.delivered, Exec.op?, hops, Stream.docs, docsOf]
  refine ⟨hdel ▸ h0.docs_prefix, fun hc => ?_⟩
  simp only [Exec.completed, Exec.op?, hops, List.getElem?_cons_zero, Option.map_some',
    Option.getD_some] at hc
  cases h0 with
  | reading => simp at hc
  | ended =>
    rw [hdel, docsOf_append, docsOf_map_doc]
    simp
  | failed => simp at hc

end Emitted

/-! ## A run completes -/

section Progress

variable {index : IndexInfo} {hi : Key} {s : Nat} {ks : List Key} {x : Exec}

/-- **The dedup pipeline when nothing has failed**: in its states on a lock that had no permit
taken, `toDocInfo`'s output a prefix of all it owes and the stage's a prefix of all the stage
owes that; `n` counts the moves left. -/
def DedupProgress (env : Env) (index : IndexInfo) (hi : Key) (s : Nat) (ks : List Key) (n : Nat)
    (x : Exec) : Prop :=
  ∃ a0 l0 t0 ds q l1 t1,
    x.cp.ops = [⟨a0, ⟨l0, t0⟩⟩, ⟨q.elim .finished fun q => .headQueue (.dedup index hi) ⟨0, q.1, q.2⟩,
      ⟨l1, t1⟩⟩] ∧
    t0 ≤ l0.length ∧ t1 ≤ l1.length ∧ DocInfoRun env s ks a0 l0 ∧
    QueueRun ((QueueKind.dedup index hi).passes env) (l0.take t0) ds q l1 ∧
    x.cp.flowControlLock.active + ((ds.filter (!(QueueKind.dedup index hi).passes env ·)).length +
      (docsOf (l1.take t1)).length) = (docsOf l0).length ∧
    l0 <+: docInfoOwed env s ks ∧
    l1 <+: stageOwed ((QueueKind.dedup index hi).passes env) (docInfoOwed env s ks) ∧
    n = docInfoMoves a0 + 4 * (l0.length - t0) + 3 * q.elim 0 (fun q => q.1.length) + (l1.length - t1)

/-- **One move towards the end of the dedup pipeline's output**: it has sent all it owes, or a
move keeps it in `DedupProgress` with fewer moves left — the stage decides its head; the
consumer takes a message; the stage reads; or, everything downstream taken and decided, so no
permit held, `toDocInfo` reads or sends. -/
theorem DedupProgress.step {n : Nat} (h : DedupProgress env index hi s ks n x) :
    x.sentAt 1 = some (stageOwed ((QueueKind.dedup index hi).passes env) (docInfoOwed env s ks)) ∨
      ∃ m y, (∃ c, x.move env 1 c = some y) ∧ DedupProgress env index hi s ks m y ∧ m < n := by
  obtain ⟨a0, l0, t0, ds, q, l1, t1, hops, ht0, ht1, h0, h1, hlock, hpre0, hpre1, rfl⟩ := h
  have hsent : x.sentAt 1 = some l1 := by simp [Exec.sentAt, Exec.op?, hops]
  rcases q with _ | ⟨fut, ended⟩
  · -- the stage has returned, its output ended: all it owes
    obtain ⟨pre, e, rfl⟩ := h1.ends_with_error
    exact .inl (hsent.trans (congrArg some (stageOwed_eq_of_isPrefix _ hpre1).symm))
  have ho : x.op? 1 = some ⟨.headQueue (.dedup index hi) ⟨0, fut, ended⟩, ⟨l1, t1⟩⟩ := by
    simp [Exec.op?, hops]
  have hops1 : x.cp.ops = [⟨a0, ⟨l0, t0⟩⟩, ⟨(fun q : List ScanReturned × Bool =>
      Actor.headQueue (.dedup index hi) ⟨0, q.1, q.2⟩) (fut, ended), ⟨l1, t1⟩⟩] := hops
  -- a move of the stage, on an event that keeps its output a prefix of what it owes
  have stage : ∀ ev y, x.step env 1 ev = some y → (ev = .complete ∨ ev = .input ∧ fut = []) →
      ∃ m y, (∃ c, x.move env 1 c = some y) ∧ DedupProgress env index hi s ks m y ∧
        m < docInfoMoves a0 + 4 * (l0.length - t0) + 3 * fut.length + (l1.length - t1) := by
    intro ev y hy hev
    obtain ⟨t0', ds', q', ms, hops', ht0', hrun', hact, hlt, howed⟩ :=
      QueueRun.queueMove hops1 ht0 h1 (headQueueStep_queueMove (by simpa only [Exec.step, ho, headQueueActor_eq] using hy))
    refine ⟨_, y, ⟨.step 1 ev, hy⟩, ⟨a0, l0, t0', ds', q', l1 ++ ms, t1, hops', ht0',
      by rw [List.length_append]; omega, h0,
      hrun', ?_, hpre0, (howed hev).trans (stageOwed_mono hpre0), rfl⟩, ?_⟩
    · rw [List.take_append_of_le_length ht1]
      omega
    · simp only [List.length_append]
      omega
  rcases fut with _ | ⟨d, rest⟩
  · cases ended
    · by_cases hc : t1 < l1.length
      · -- the consumer takes the next message
        obtain ⟨y, hy⟩ := Exec.consume_of_peek
          (by simp [Exec.peek, Exec.op?, hops, Stream.peek, hc] : x.peek 1 = some (l1.get ⟨t1, hc⟩))
        obtain ⟨-, hops', hact⟩ := consume_stage hops hy
        refine .inr ⟨_, y, ⟨.consume, hy⟩, ⟨a0, l0, t0, ds, _, l1, t1 + 1, hops', ht0, hc, h0, h1, by omega,
          hpre0, hpre1, rfl⟩, by omega⟩
      by_cases hr : t0 < l0.length
      · -- the stage reads into its empty queue
        obtain ⟨y, hy⟩ := (headQueue_live ho).2 rfl
          (by simp [Exec.peek, Exec.op?, hops, Stream.peek, hr])
        exact .inr (stage .input y hy (.inr ⟨rfl, rfl⟩))
      -- everything downstream has been taken and decided
      have hall : l0.take t0 = l0 := List.take_of_length_le (by omega)
      have hl1 : l1.take t1 = l1 := List.take_of_length_le (by omega)
      generalize hM : l0.take t0 = M at h1
      cases h1
      have hl0 : l0 = ds.map .doc := by simpa [hall] using hM
      cases h0 with
      | reading hks =>
        rename_i c kvs lastKey w
        have hfree : x.canTake = true := by
          have hlen := @List.length_eq_length_filter_add _ ds ((QueueKind.dedup index hi).passes env)
          rw [hl1, hl0] at hlock
          simp only [docsOf_map_doc] at hlock
          have hact : x.cp.flowControlLock.active = 0 := by omega
          simp [Exec.canTake, FlowControlLock.canTake, hact]
        obtain ⟨ev, hev, y, hy⟩ := toDocInfo_live env ⟨s, kvs, lastKey, w⟩ (.inr hfree)
        obtain ⟨a, ms, hops', hrun, hact, hlt, howed⟩ := DocInfoRun.step hops (.reading hks) hy
        refine .inr ⟨_, y, ⟨.step 0 ev, by simpa [Exec.move, Exec.step, Exec.op?, hops] using hy⟩,
          ⟨a, _, t0, ds, some ([], false), _, t1, hops', by rw [List.length_append]; omega, ht1, hrun,
            ?_, ?_, howed hev, hpre1, rfl⟩, ?_⟩
        · rw [List.take_append_of_le_length ht0, hall, hl0]
          simpa using @QueueRun.reading ((QueueKind.dedup index hi).passes env) ds []
        · rw [hact, docsOf_append, List.length_append]
          push_cast
          omega
        · simp only [List.length_append, Option.elim]
          omega
      | ended | failed =>
        exact absurd (hl0 ▸ List.mem_append_right _ (List.mem_singleton_self _)) (by simp)
    · generalize l0.take t0 = M at h1
      rcases h1 with _ | ⟨hne⟩
      exact absurd rfl hne
  · obtain ⟨y, hy⟩ := (headQueue_live ho).1 (List.cons_ne_nil _ _)
    exact .inr (stage .complete y hy (.inl rfl))

/-- **`stageOwed` of all `toDocInfo` owes ends with `end_of_stream`.** -/
theorem contains_stageOwed_docInfoOwed (passes : ScanReturned → Bool) :
    (stageOwed passes (docInfoOwed env s ks)).contains (.error .endOfStream) = true := by
  rw [docInfoOwed, stageOwed_docs_append]
  simp [stageOwed]

/-- **From every state of the dedup pipeline in which nothing has failed, on a lock that had no
permit taken, a run completes.** -/
theorem DedupScanInv.completes (h : DedupScanInv env index hi s ks 0 x) (hf : x.failed = false) :
    ∃ y, Exec.Reaches env 1 x y ∧ y.completed 1 = true := by
  obtain ⟨a0, l0, t0, ds, q, l1, t1, hops, ht0, ht1, h0, h1, hlock⟩ := h
  simp only [Exec.failed, hops, List.any_cons, List.any_nil, Bool.or_false, Bool.or_eq_false_iff] at hf
  have hpre0 := h0.isPrefix_owed hf.1
  obtain ⟨y, hxy, hy⟩ := Exec.reaches_of_measure (DedupProgress env index hi s ks) _ (fun _ _ h => h.step) _ x
    ⟨a0, l0, t0, ds, q, l1, t1, hops, ht0, ht1, h0, h1, by omega, hpre0,
      (h1.isPrefix_owed_of_not_failed hf.2).trans (stageOwed_mono hpre0), rfl⟩
  exact ⟨y, hxy, by rw [Exec.completed_of_sentAt hy, contains_stageOwed_docInfoOwed]⟩

end Progress

/-! ## One document's entries -/

/-- **The key parts of the document `pk`'s entries in `index`.** -/
def docParts (env : Env) (index : IndexInfo) (pk : Key) : List Key :=
  indexParts index fun path => env.fieldValues path (.stored pk)

/-- **The index holds exactly the entries of the documents**: the entry `w ++ pk` for every
part `w` of every document `pk`, and nothing else; an entry's last item is its primary key. -/
structure IndexHolds (env : Env) (index : IndexInfo) : Prop where
  entries : ∀ k, k ∈ env.indexEntries index ↔ ∃ pk, ∃ w ∈ docParts env index pk, k = w ++ pk
  lastItem : ∀ pk, ∀ w ∈ docParts env index pk, env.lastItem (w ++ pk) = pk

/-- **The entries of the document `pk` that a range read of `[lo, hi)` meets**, in key order. -/
def docEntries (env : Env) (index : IndexInfo) (lo hi pk : Key) : List Key :=
  (getDescendants (env.indexEntries index) lo hi).filter fun k => env.lastItem k = pk

section Entries

variable {index : IndexInfo} {pk lo hi : Key}

theorem mem_docEntries (hidx : IndexHolds env index) {k : Key} :
    k ∈ docEntries env index lo hi pk ↔ ∃ w ∈ docParts env index pk, k = w ++ pk ∧ lo ≤ k ∧ k < hi := by
  simp only [docEntries, getDescendants, List.mem_filter, decide_eq_true_eq, and_assoc]
  constructor
  · rintro ⟨hk, hlo, hhi, rfl⟩
    obtain ⟨pk', w, hw, rfl⟩ := (hidx.entries _).1 hk
    rw [hidx.lastItem pk' w hw]
    exact ⟨w, hw, rfl, hlo, hhi⟩
  · rintro ⟨w, hw, rfl, hlo, hhi⟩
    exact ⟨(hidx.entries _).2 ⟨pk, w, hw, rfl⟩, hlo, hhi, hidx.lastItem pk w hw⟩

theorem sorted_docEntries : (docEntries env index lo hi pk).Sorted (· < ·) :=
  ((env.indexEntries_sorted index).filter _).filter _

/-- **The last of the document's entries in the range is its greatest one.** -/
theorem getLast?_docEntries (hidx : IndexHolds env index) (hpf : PrefixFree (docParts env index pk))
    {w : Key} (hw : w ∈ docParts env index pk) (hlo : lo ≤ w ++ pk) (hhi : w ++ pk < hi)
    (hgr : ∀ v ∈ docParts env index pk, lo ≤ v ++ pk → v ++ pk < hi → v ≤ w) :
    (docEntries env index lo hi pk).getLast? = some (w ++ pk) := by
  generalize hE : docEntries env index lo hi pk = E
  have hmem : ∀ k, k ∈ E ↔ _ := fun k => hE ▸ mem_docEntries hidx
  have hs : E.Sorted (· < ·) := hE ▸ sorted_docEntries
  rcases List.eq_nil_or_concat E with rfl | ⟨E, m, rfl⟩
  · simpa using (hmem _).2 ⟨w, hw, rfl, hlo, hhi⟩
  rw [List.concat_eq_append] at hs hmem ⊢
  rw [List.getLast?_concat]
  obtain ⟨wm, hwm, rfl, hlom, hmhi⟩ := (hmem m).1 (by simp)
  rcases List.mem_append.1 ((hmem _).2 ⟨w, hw, rfl, hlo, hhi⟩) with hin | heq
  · exact absurd ((hpf.append_le_append_iff hwm hw).2 (hgr wm hwm hlom hmhi))
      (not_le.2 ((List.pairwise_append.1 hs).2.2 _ hin _ (List.mem_singleton_self _)))
  · rw [List.mem_singleton.1 heq]

end Entries

/-! ## The scan range -/

theorem scanRange_eq_some {begin end_ : Option Key} {bounds : Key × Key} {lo hi : Key}
    (h : scanRange begin end_ bounds = some (lo, hi)) :
    ∃ e', (end_ = none ∧ e' = allKeysEnd ∨ ∃ e, end_ = some e ∧ strinc e = some e') ∧
      lo = max (begin.getD allKeysBegin) bounds.1 ∧ hi = max lo (min e' bounds.2) := by
  cases end_ with
  | none =>
    simp only [scanRange, Option.pure_def, Option.bind_eq_bind, Option.some_bind, Option.some.injEq,
      Prod.mk.injEq] at h
    exact ⟨_, .inl ⟨rfl, rfl⟩, h.1.symm, h.1 ▸ h.2.symm⟩
  | some e =>
    simp only [scanRange, Option.pure_def, Option.bind_eq_bind, Option.bind_eq_some,
      Option.some.injEq, Prod.mk.injEq] at h
    obtain ⟨e', he', hlo, hhi⟩ := h
    exact ⟨e', .inr ⟨e, rfl, he'⟩, hlo.symm, hlo ▸ hhi.symm⟩

/-- **A nonempty range ends at the lower of the plan's end and the scan's bound.** -/
theorem hi_eq_min_of_lt {lo m hi : Key} (hhi : hi = max lo m) (hlt : lo < hi) : hi = m := by
  subst hhi
  rcases lt_max_iff.1 hlt with h | h
  · exact absurd h (lt_irrefl _)
  · exact max_eq_right (le_of_lt h)

section Range

variable {begin end_ : Option Key} {bounds : Key × Key} {lo hi pk : Key} {parts : List Key}

/-- **The upper bound of a nonempty index scan range cuts no entry** of a document whose parts
are not empty and none of which is a proper prefix of the plan's end. -/
theorem cutsNoEntry_of_scanRange (hr : scanRange begin end_ bounds = some (lo, hi))
    (hb : bounds.2 = allKeysEnd) (hne : [] ∉ parts) (hend : ∀ e, end_ = some e → ∀ w ∈ parts, w <+: e → w = e)
    (hlt : lo < hi) : CutsNoEntry parts pk hi := by
  obtain ⟨e', he', -, hhi⟩ := scanRange_eq_some hr
  rw [hi_eq_min_of_lt hhi hlt, hb]
  refine CutsNoEntry.min ?_ (cutsNoEntry_allKeysEnd hne)
  rcases he' with ⟨-, rfl⟩ | ⟨e, rfl, hs⟩
  exacts [cutsNoEntry_allKeysEnd hne, cutsNoEntry_strinc (hend e rfl) hs]

/-- **A point range `[v, strinc v)` holds only keys that start with `v`.** -/
theorem prefix_of_mem_pointRange {v k : Key} (hr : scanRange (some v) (some v) bounds = some (lo, hi))
    (h1 : lo ≤ k) (h2 : k < hi) : v <+: k := by
  obtain ⟨e', he', hlo, hhi⟩ := scanRange_eq_some hr
  obtain ⟨e, he, hs⟩ := he'.resolve_left (by simp)
  cases he
  rw [hi_eq_min_of_lt hhi (lt_of_le_of_lt h1 h2)] at h2
  exact prefix_of_lt_strinc hs (le_trans (hlo ▸ le_max_left _ _) h1) (lt_of_lt_of_le h2 (min_le_left _ _))

end Range

/-! ## Each document exactly once -/

section Emits

variable {index : IndexInfo} {hi pk : Key} {s : Nat} {ks : List Key}

/-- **The dedup stage's output, restricted to the document `pk`**: the document's entries that
pass the test on its own parts. -/
theorem filter_dedup_doc :
    ((ks.map (entryDoc env s)).filter ((QueueKind.dedup index hi).passes env)).filter
        (fun d => d.doc = .stored pk) =
      (((ks.filter fun k => env.lastItem k = pk).filter fun k =>
        wouldBeLast index (fun path => env.fieldValues path (.stored pk)) k hi).map (entryDoc env s)) := by
  rw [List.filter_filter, List.filter_filter, List.filter_map]
  congr 1
  refine List.filter_congr fun k _ => ?_
  by_cases hk : env.lastItem k = pk
  · subst hk
    simp [QueueKind.passes, entryDoc, Bool.and_comm]
  · simp [entryDoc, hk]

/-- **The point scan's output, restricted to the document `pk`**: the document's entries. -/
theorem filter_point_doc :
    (ks.map (entryDoc env s)).filter (fun d => d.doc = .stored pk) =
      (ks.filter fun k => env.lastItem k = pk).map (entryDoc env s) := by
  rw [List.filter_map]
  congr 1
  exact List.filter_congr fun k _ => by simp [entryDoc]

end Emits

theorem eq_getLast?_of_forall_eq {m : Key} :
    ∀ {E : List Key}, E.Sorted (· < ·) → (∀ k ∈ E, k = m) → E = E.getLast?.toList
  | [], _, _ => rfl
  | [_], _, _ => rfl
  | a :: b :: _, hs, h => by
    have := List.rel_of_sorted_cons hs b (by simp)
    rw [h a (by simp), h b (by simp)] at this
    exact absurd this (lt_irrefl m)

/-- **Every run of `IndexScanPlan` emits each document at most once, at its greatest entry in
the scan range, and never a document with no entry there; a completed run emits it exactly once;
and from every state in which nothing has failed, a run completes.** The run is on a checkpoint
with no operations whose bound for the new scan ends at `"\xff"` (a fresh one, or one
`stopAndCheckpoint` returned), `[lo, hi)` is the range `execute` computes, and the index holds
exactly the documents' entries. The document's parts are prefix-free and not empty, none is a
proper prefix of the plan's end, and on the single-field point path the plan's begin is no
proper prefix of one. A run completes from a lock that had no permit taken. -/
theorem indexScan_emits_last_entry {cp : PlanCheckpoint} {index : IndexInfo}
    {begin end_ : Option Key} {lo hi pk : Key} {x : Exec} {root : Nat}
    (hcp : cp.ops = []) (hends : (cp.getBounds cp.scansAdded).2 = allKeysEnd)
    (hr : scanRange begin end_ (cp.getBounds cp.scansAdded) = some (lo, hi))
    (hidx : IndexHolds env index) (hpf : PrefixFree (docParts env index pk))
    (hne : [] ∉ docParts env index pk)
    (hend : ∀ e, end_ = some e → ∀ w ∈ docParts env index pk, w <+: e → w = e)
    (hbeg : ∀ v, begin = some v → index.size = 1 → ∀ w ∈ docParts env index pk, v <+: w → w = v)
    (hx : Reachable env (.indexScan index begin end_) cp x root) :
    (∀ w ∈ docParts env index pk, lo ≤ w ++ pk → w ++ pk < hi →
        (∀ v ∈ docParts env index pk, lo ≤ v ++ pk → v ++ pk < hi → v ≤ w) →
        (x.delivered root).filter (fun d => d.doc = .stored pk) <+: [⟨.stored pk, cp.scansAdded, w ++ pk⟩] ∧
        (x.completed root = true →
          (x.delivered root).filter (fun d => d.doc = .stored pk) = [⟨.stored pk, cp.scansAdded, w ++ pk⟩])) ∧
      ((∀ w ∈ docParts env index pk, ¬(lo ≤ w ++ pk ∧ w ++ pk < hi)) →
        (x.delivered root).filter (fun d => d.doc = .stored pk) = []) ∧
      (cp.flowControlLock.active = 0 → x.failed = false →
        ∃ y, Exec.Reaches env root x y ∧ y.completed root = true) := by
  have hmem : ∀ k, k ∈ docEntries env index lo hi pk ↔ _ := fun k => mem_docEntries hidx
  have hs : (docEntries env index lo hi pk).Sorted (· < ·) := sorted_docEntries
  -- both pipelines emit a prefix of what they owe, all of it once complete, and complete; what
  -- they owe holds the document at the last of its entries in the range
  obtain ⟨F, hF, hdel, hprod⟩ : ∃ F : List ScanReturned,
      F.filter (fun d => d.doc = .stored pk) =
        (docEntries env index lo hi pk).getLast?.toList.map (entryDoc env cp.scansAdded) ∧
      (x.delivered root <+: F ∧ (x.completed root = true → x.delivered root = F)) ∧
      (cp.flowControlLock.active = 0 → x.failed = false →
        ∃ y, Exec.Reaches env root x y ∧ y.completed root = true) := by
    by_cases hpath : begin.isSome ∧ begin = end_ ∧ index.size = 1
    · obtain ⟨rfl, hinv⟩ := pointScanInv_of_reachable hcp hr hpath hx
      refine ⟨_, ?_, hinv.delivered_docInfo, fun h0 hf => ?_⟩
      swap
      · obtain ⟨y, hxy, hy⟩ := (h0 ▸ hinv).produces docInfo_soleProducer hf
        exact ⟨y, hxy, by simp [Exec.completed_of_sentAt hy, docInfoOwed]⟩
      rw [filter_point_doc]
      obtain ⟨hb, rfl, hsize⟩ := hpath
      obtain ⟨v, rfl⟩ := Option.isSome_iff_exists.1 hb
      congr 1
      refine eq_getLast?_of_forall_eq (m := v ++ pk) hs fun k hk => ?_
      obtain ⟨w, hw, rfl, h1, h2⟩ := (hmem _).1 hk
      have hv := prefix_of_mem_pointRange hr h1 h2
      rw [(List.prefix_or_prefix_of_prefix hv (List.prefix_append w pk)).elim
        (fun h => hbeg v rfl hsize w hw h) fun h => hend v rfl w hw h]
    · obtain ⟨rfl, hinv⟩ := dedupScanInv_of_reachable hcp hr hpath hx
      refine ⟨_, ?_, hinv.delivered, fun h0 hf => (h0 ▸ hinv).completes hf⟩
      rw [filter_dedup_doc]
      change ((docEntries env index lo hi pk).filter _).map _ = _
      rcases hE : docEntries env index lo hi pk with _ | ⟨k, E⟩
      · rfl
      obtain ⟨-, -, -, h1, h2⟩ := (hmem k).1 (hE ▸ List.mem_cons_self k E)
      rw [← hE, filter_wouldBeLast hpf (cutsNoEntry_of_scanRange hr hends hne hend (lt_of_le_of_lt h1 h2))
        hs hmem]
  have hD : (x.delivered root).filter (fun d => d.doc = .stored pk) <+:
      (docEntries env index lo hi pk).getLast?.toList.map (entryDoc env cp.scansAdded) :=
    hF ▸ hdel.1.filter _
  refine ⟨fun w hw hlo hhi hgr => ?_, fun hnone => ?_, hprod⟩
  · have hT : (docEntries env index lo hi pk).getLast?.toList.map (entryDoc env cp.scansAdded) =
        [⟨.stored pk, cp.scansAdded, w ++ pk⟩] := by
      rw [getLast?_docEntries hidx hpf hw hlo hhi hgr]
      simp [entryDoc, hidx.lastItem pk w hw]
    exact ⟨hT ▸ hD, fun hc => by rw [hdel.2 hc, hF, hT]⟩
  · have hE : docEntries env index lo hi pk = [] := List.eq_nil_iff_forall_not_mem.2 fun k hk => by
      obtain ⟨w, hw, rfl, h1, h2⟩ := (hmem k).1 hk
      exact hnone w hw ⟨h1, h2⟩
    rw [hE] at hD
    exact List.prefix_nil.1 hD

/-- **A collection with one document `[9]` whose indexed field holds two values**, encoded
`[1]` and `[2]`: the index holds the entries `[1, 9]` and `[2, 9]`, and an entry's last item
is its second byte. -/
def arrayEnv : Env :=
  ⟨[], fun _ => [[1, 9], [2, 9]], id, fun k => k.drop 1, fun _ _ => true,
    fun _ d => if d = .stored [9] then [[1], [2]] else [], [], List.sorted_nil,
    fun _ => (by decide : ([[1, 9], [2, 9]] : List Key).Sorted (· < ·))⟩

theorem arrayEnv_indexHolds : IndexHolds arrayEnv ⟨0, [[7]]⟩ := by
  have hparts : ∀ pk, docParts arrayEnv ⟨0, [[7]]⟩ pk = if pk = [9] then [[1], [2]] else [] :=
    fun pk => by simp [docParts, indexParts, IndexInfo.size, arrayEnv]
  refine ⟨fun k => ?_, fun pk w hw => ?_⟩
  · simp only [hparts]
    constructor
    · intro hk
      simp only [arrayEnv, List.mem_cons, List.mem_singleton, List.not_mem_nil, or_false] at hk
      rcases hk with rfl | rfl
      exacts [⟨[9], [1], by simp, rfl⟩, ⟨[9], [2], by simp, rfl⟩]
    · rintro ⟨pk, w, hw, rfl⟩
      split_ifs at hw with h
      · subst h
        simp only [List.mem_cons, List.mem_singleton, List.not_mem_nil, or_false] at hw
        rcases hw with rfl | rfl <;> simp [arrayEnv]
      · simp at hw
  · rw [hparts] at hw
    split_ifs at hw with h
    · subst h
      simp only [List.mem_cons, List.mem_singleton, List.not_mem_nil, or_false] at hw
      rcases hw with rfl | rfl <;> rfl
    · simp at hw

/-- **A document with two index entries in range is emitted once, at the greater one.** The
index scan over the whole index reads `[1, 9]` and `[2, 9]`; the dedup stage drops the first,
whose part is not the greatest below `"\xff"`, and emits the second. -/
theorem indexScan_emits_last_entry_array :
    ∃ x, Reachable arrayEnv (.indexScan ⟨0, [[7]]⟩ none none) (PlanCheckpoint.new 100) x 1 ∧
      x.completed 1 = true ∧
      (x.delivered 1).filter (fun d => d.doc = .stored [9]) = [⟨.stored [9], 0, [2, 9]⟩] := by
  have hx : Reachable arrayEnv (.indexScan ⟨0, [[7]]⟩ none none) (PlanCheckpoint.new 100) _ 1 :=
    Reachable.of_run rfl (show Exec.run arrayEnv 1 _ [.step 0 .input, .step 0 .complete, .step 0 .input,
      .step 0 .complete, .step 0 .input, .step 1 .input, .step 1 .input, .step 1 .input,
      .step 1 .complete, .step 1 .complete] = some _ from rfl)
  exact ⟨_, hx, by decide, ((indexScan_emits_last_entry (by rfl) (by rfl)
    (by exact show scanRange none none _ = some ([0], [255]) from rfl) arrayEnv_indexHolds (by decide)
    (by decide) (by simp) (by simp) hx).1 [2] (by decide) (by decide) (by decide) (by decide)).2 (by decide)⟩

end DocLayer
