import DocLayer.NonIsolated
import DocLayer.ReadOrder
import DocLayer.PKScan

/-! # `doSort`

`SortPlan::execute` registers `doSort`, which executes its subplan on a checkpoint of its own
(`innerCheckpoint`) and reads the subplan's whole output into `returnProjections`, giving each
document's permit back. At `end_of_stream` it sorts them with `std::sort` under `bsonCompare`
and sends them one by one, each after a permit of the outer checkpoint, as new documents of
scan id `-1`; then it stops the inner checkpoint and ends its output with `end_of_stream`. Any
other error of the subplan is rethrown out of the read loop, past the `try` that holds the
sends: the actor ends without sending anything on its output.

`std::sort` is a parameter `sort` of the model: what is proved holds of any sort function, so
of the one `std::sort` computes under `bsonCompare`, whatever order it leaves equal keys in.
The outer permit is always free, as for the non-isolated wrappers.

* **`DoSort`, `DoSort.move`, `DoSort.run`** — the actor's state and its moves.
* **`SortInv`** — where the actor can be: reading, with what it read being what it took from
  the subplan's output; or past the read loop, with the sorted documents of a run of the
  subplan that ended with `end_of_stream`. `SortInv.move` is its step lemma.
* **`doSort_sends_sorted`** — every run sends nothing, or a prefix of the sorted documents of
  a completed run of the subplan followed by `end_of_stream`. -/

namespace DocLayer

/-- **Where `doSort` is**: in its read loop, sending the sorted projections from the `i`-th on,
returned after its `end_of_stream`, or thrown out of the read loop with `e`. -/
inductive SortPhase
  | reading
  | sending (i : Nat)
  | returned
  | thrown (e : ErrorCode)
  deriving DecidableEq, Repr

/-- **`doSort`'s state**: the execution of the subplan on `innerCheckpoint`, the index of the
subplan's output `docs`, the documents read (`returnProjections`, sorted once the read loop is
left), the phase, and the output. -/
structure DoSort where
  inner : Exec
  docs : Nat
  returnProjections : List ScanReturned
  phase : SortPhase
  output : Stream
  deriving Repr

/-- **A move of a run of `doSort`.** -/
inductive SortMove
  /-- Operation `i` of the subplan's execution is woken by `ev`. -/
  | inner (i : Nat) (ev : Event)
  /-- `waitNext(docs)` in the read loop returns the next message of the subplan's output. -/
  | next
  /-- `outerLock->take()` returns: the next sorted document is sent; once all are, the inner
  checkpoint is stopped and the output ended. -/
  | send
  deriving DecidableEq, Repr

/-- **The document `doSort` sends for a projection**: a new `BsonContext` of the projection's
`doc` field, of scan id `-1` and the empty scan key. -/
def sortedDoc (d : ScanReturned) : ScanReturned := ⟨d.doc, -1, []⟩

namespace DoSort

variable (env : Env) (subPlan : Plan) (sort : List ScanReturned → List ScanReturned)

/-- **`doSort` started**: the subplan executed on `new PlanCheckpoint` (a lock of `permits`
permits). -/
def start (permits : Nat) : Option DoSort :=
  (Exec.start env subPlan (PlanCheckpoint.new permits)).map fun s => ⟨s.1, s.2, [], .reading, .empty⟩

/-- **One move of `doSort`.** The subplan's actors run while `doSort` reads and sends; once it
has returned or thrown they are gone. -/
def move (r : DoSort) : SortMove → Option DoSort
  | .inner i ev =>
    match r.phase with
    | .reading | .sending _ => (r.inner.step env i ev).map fun y => { r with inner := y }
    | _ => none
  | .next =>
    match r.phase, r.inner.peek r.docs with
    | .reading, some (.doc d) =>
      some { r with
        inner := (r.inner.popInput r.docs).releasePermit
        returnProjections := r.returnProjections ++ [d] }
    | .reading, some (.error .endOfStream) =>
      some { r with returnProjections := sort r.returnProjections, phase := .sending 0 }
    | .reading, some (.error e) => some { r with phase := .thrown e }
    | _, _ => none
  | .send =>
    match r.phase with
    | .sending i =>
      match r.returnProjections[i]? with
      | some d => some { r with phase := .sending (i + 1), output := r.output.send (.doc (sortedDoc d)) }
      | none =>
        some { r with
          inner := r.inner.stop env
          phase := .returned
          output := r.output.send (.error .endOfStream) }
    | _ => none

/-- **A sequence of moves**, replayed from `r`. -/
def run (r : DoSort) : List SortMove → Option DoSort
  | [] => some r
  | m :: ms => (r.move env sort m).bind fun r' => run r' ms

end DoSort

/-! ## The invariant -/

/-- **A run of `subPlan` on a fresh checkpoint has sent the documents `ds`, then
`end_of_stream`**, on its output `root`. -/
def Completes (env : Env) (subPlan : Plan) (permits root : Nat) (ds : List ScanReturned) : Prop :=
  ∃ x l, Reachable env subPlan (PlanCheckpoint.new permits) x root ∧ x.sentAt root = some l ∧
    ds.map .doc ++ [.error .endOfStream] <+: l

/-- **Where `doSort` can be.** Reading: its subplan's execution is a reachable state, and what
it read is what it took from the subplan's output, all documents, with nothing sent. Sending
or returned: the subplan has completed with `ds`, the projections are `sort ds`, and the output
is the first of them, or all of them then `end_of_stream`. Thrown: nothing sent. -/
inductive SortInv (env : Env) (subPlan : Plan) (sort : List ScanReturned → List ScanReturned)
    (permits : Nat) (r : DoSort) : Prop
  | reading {l : List Msg} {t : Nat} : r.phase = .reading →
      Reachable env subPlan (PlanCheckpoint.new permits) r.inner r.docs →
      r.inner.sentAt r.docs = some l → r.inner.takenAt r.docs = some t → t ≤ l.length →
      l.take t = r.returnProjections.map .doc → r.output.sent = [] → SortInv env subPlan sort permits r
  | sending {ds : List ScanReturned} {i : Nat} : r.phase = .sending i →
      Completes env subPlan permits r.docs ds → r.returnProjections = sort ds →
      r.output.sent = ((sort ds).take i).map (.doc ∘ sortedDoc) → SortInv env subPlan sort permits r
  | returned {ds : List ScanReturned} : r.phase = .returned → Completes env subPlan permits r.docs ds →
      r.output.sent = (sort ds).map (.doc ∘ sortedDoc) ++ [.error .endOfStream] →
      SortInv env subPlan sort permits r
  | thrown {e : ErrorCode} : r.phase = .thrown e → r.output.sent = [] → SortInv env subPlan sort permits r

theorem peek_of_sentAt {x : Exec} {j t : Nat} {l : List Msg} (hl : x.sentAt j = some l)
    (ht : x.takenAt j = some t) : x.peek j = l[t]? := by
  simp only [Exec.sentAt, Exec.takenAt, Option.map_eq_some'] at hl ht
  obtain ⟨o, ho, rfl⟩ := hl
  obtain ⟨o', ho', rfl⟩ := ht
  cases ho.symm.trans ho'
  simp [Exec.peek, ho, Stream.peek]

theorem take_of_isPrefix {α : Type} {l l' : List α} (h : l <+: l') {t : Nat} (ht : t ≤ l.length) :
    l'.take t = l.take t := by
  obtain ⟨u, rfl⟩ := h
  exact List.take_append_of_le_length ht

section Inv

variable {env : Env} {subPlan : Plan} {sort : List ScanReturned → List ScanReturned} {permits : Nat}
  {r r' : DoSort}

theorem SortInv.start (h0 : DoSort.start env subPlan permits = some r) : SortInv env subPlan sort permits r := by
  obtain ⟨⟨x, root⟩, hs, rfl⟩ := Option.map_eq_some'.1 h0
  have ht := Exec.start_takenAt rfl hs
  obtain ⟨l, hl⟩ : ∃ l, x.sentAt root = some l := by
    simp only [Exec.takenAt, Option.map_eq_some'] at ht
    obtain ⟨o, ho, -⟩ := ht
    exact ⟨o.output.sent, by simp [Exec.sentAt, ho]⟩
  exact .reading rfl (.start hs) hl ht (Nat.zero_le _) (by simp) rfl

/-- **The read loop**: a step of the subplan leaves what `doSort` took from its output alone;
a document is taken as the consumer of the subplan takes it; `end_of_stream` completes the
subplan's run and sorts; another error throws. -/
theorem SortInv.reading_move {l : List Msg} {t : Nat} (hph : r.phase = .reading)
    (hx : Reachable env subPlan (PlanCheckpoint.new permits) r.inner r.docs) (hl : r.inner.sentAt r.docs = some l)
    (ht : r.inner.takenAt r.docs = some t) (htl : t ≤ l.length) (htake : l.take t = r.returnProjections.map .doc)
    (hout : r.output.sent = []) {m : SortMove} (hm : r.move env sort m = some r') :
    SortInv env subPlan sort permits r' := by
  cases m with
  | inner i ev =>
    simp only [DoSort.move, hph, Option.map_eq_some'] at hm
    obtain ⟨y, hy, rfl⟩ := hm
    obtain ⟨l', hl', hpre⟩ := (step_frame hy).sent_grows _ _ hl
    exact .reading rfl (.move (.step i ev) hx hy) hl' ((outputUnread_new subPlan permits hx hy).trans ht)
      (htl.trans hpre.length_le) ((take_of_isPrefix hpre htl).trans htake) hout
  | next =>
    have hpeek := peek_of_sentAt hl ht
    simp only [DoSort.move, hph, hpeek] at hm
    split at hm
    · -- a document
      rename_i d hd
      cases hm
      have hc : r.inner.move env r.docs .consume = some (r.inner.popInput r.docs).releasePermit := by
        simp [Exec.move, Exec.consume, hpeek, hd]
      exact .reading rfl (.move .consume hx hc) (by simpa using hl) (by simp [ht])
        (List.getElem?_eq_some_iff.1 hd).1 (by simp [take_succ_of_getElem? hd, htake]) hout
    · -- `end_of_stream`: the subplan has completed
      rename_i hd
      cases hm
      refine .sending rfl ⟨r.inner, l, hx, hl, ?_⟩ rfl (by simp [hout])
      rw [← htake, ← take_succ_of_getElem? hd]
      exact List.take_prefix _ _
    · cases hm
      exact .thrown rfl hout
    · cases hm
  | send => simp [DoSort.move, hph] at hm

/-- **The sends**: each sorted document in turn, then `end_of_stream`. -/
theorem SortInv.sending_move {ds : List ScanReturned} {i : Nat} (hph : r.phase = .sending i)
    (hc : Completes env subPlan permits r.docs ds) (hrp : r.returnProjections = sort ds)
    (hout : r.output.sent = ((sort ds).take i).map (.doc ∘ sortedDoc)) {m : SortMove}
    (hm : r.move env sort m = some r') : SortInv env subPlan sort permits r' := by
  cases m with
  | inner i ev =>
    simp only [DoSort.move, hph, Option.map_eq_some'] at hm
    obtain ⟨y, -, rfl⟩ := hm
    exact .sending rfl hc hrp hout
  | next => simp [DoSort.move, hph] at hm
  | send =>
    simp only [DoSort.move, hph, hrp] at hm
    split at hm <;> cases hm
    · rename_i d hd
      exact .sending rfl hc rfl (by simp [hout, List.take_succ, hd])
    · rename_i hd
      exact .returned rfl hc (by simp [hout, List.take_of_length_le (List.getElem?_eq_none_iff.1 hd)])

/-- **Every move keeps `doSort` where `SortInv` says.** -/
theorem SortInv.move (h : SortInv env subPlan sort permits r) {m : SortMove}
    (hm : r.move env sort m = some r') : SortInv env subPlan sort permits r' := by
  rcases h with ⟨hph, hx, hl, ht, htl, htake, hout⟩ | ⟨hph, hc, hrp, hout⟩ | ⟨hph, -, -⟩ | ⟨hph, -⟩
  · exact SortInv.reading_move hph hx hl ht htl htake hout hm
  · exact SortInv.sending_move hph hc hrp hout hm
  all_goals cases m <;> simp [DoSort.move, hph] at hm

theorem SortInv.run : ∀ {ms : List SortMove} {r r' : DoSort}, SortInv env subPlan sort permits r →
    r.run env sort ms = some r' → SortInv env subPlan sort permits r'
  | [], _, _, h, hr => by cases hr; exact h
  | _ :: _, _, _, h, hr => by
    obtain ⟨r1, hm, hr1⟩ := Option.bind_eq_some.1 hr
    exact SortInv.run (h.move hm) hr1

end Inv

/-! ## What `doSort` sends -/

variable {env : Env} {subPlan : Plan} {sort : List ScanReturned → List ScanReturned}

/-- **`doSort` sends the sorted documents of a completed run of its subplan.** Whatever the
order of its moves and of its subplan's steps, it has sent nothing, or a prefix of `sort ds`
(each as a new document of scan id `-1`) followed by `end_of_stream`, where `ds` then
`end_of_stream` is what some run of the subplan on a fresh checkpoint sent. -/
theorem doSort_sends_sorted {permits : Nat} {r0 r : DoSort} {ms : List SortMove}
    (h0 : DoSort.start env subPlan permits = some r0) (h : r0.run env sort ms = some r) :
    r.output.sent = [] ∨ ∃ x l ds, Reachable env subPlan (PlanCheckpoint.new permits) x r.docs ∧
      x.sentAt r.docs = some l ∧ ds.map .doc ++ [.error .endOfStream] <+: l ∧
      r.output.sent <+: (sort ds).map (.doc ∘ sortedDoc) ++ [.error .endOfStream] := by
  rcases SortInv.run (SortInv.start h0) h with ⟨-, -, -, -, -, -, hout⟩ | ⟨-, ⟨x, l, hx, hl, hpre⟩, -, hout⟩ |
    ⟨-, ⟨x, l, hx, hl, hpre⟩, hout⟩ | ⟨-, hout⟩
  · exact .inl hout
  · refine .inr ⟨x, l, _, hx, hl, hpre, ?_⟩
    rw [hout, List.map_take]
    exact (List.take_prefix _ _).trans (List.prefix_append _ _)
  · exact .inr ⟨x, l, _, hx, hl, hpre, hout ▸ List.prefix_refl _⟩
  · exact .inl hout

/-- The table scan of the two-document collection sorted by descending scan key: the second
document is sent first. -/
def twoDocSortMoves : List SortMove :=
  [.inner 0 .input, .inner 0 .complete, .next, .inner 0 .input, .inner 0 .input, .inner 0 .complete, .next,
    .inner 0 .input, .next, .send, .send, .send]

theorem doSort_twoDocs_sorted :
    ∃ r0 r, DoSort.start twoKeyDocEnv .tableScan 10 = some r0 ∧
      r0.run twoKeyDocEnv (List.insertionSort fun a b => b.scanKey ≤ a.scanKey) twoDocSortMoves = some r ∧
      (r.output.sent = [] ∨ ∃ x l ds, Reachable twoKeyDocEnv .tableScan (PlanCheckpoint.new 10) x r.docs ∧
        x.sentAt r.docs = some l ∧ ds.map .doc ++ [.error .endOfStream] <+: l ∧
        r.output.sent <+: ((List.insertionSort (fun a b => b.scanKey ≤ a.scanKey) ds).map (.doc ∘ sortedDoc)) ++
          [.error .endOfStream]) :=
  ⟨_, _, rfl, rfl, doSort_sends_sorted rfl (rfl : DoSort.run _ _ _ twoDocSortMoves = _)⟩

example : ((DoSort.start twoKeyDocEnv .tableScan 10).bind fun r0 =>
    r0.run twoKeyDocEnv (List.insertionSort fun a b => b.scanKey ≤ a.scanKey) twoDocSortMoves).map
      (·.output.sent) =
    some [.doc ⟨.stored [2], -1, []⟩, .doc ⟨.stored [1], -1, []⟩, .error .endOfStream] := rfl

end DocLayer
