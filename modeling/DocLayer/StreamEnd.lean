import DocLayer.ReadOrder
import DocLayer.PKScan

/-! # Every output ends once, and stays ended

Every operation's output is a `PromiseStream` its actor alone sends on: documents with `send`,
then one `sendError` (`end_of_stream`, or the error that stopped it) as the actor returns. No
actor sends after its `sendError`, and a returned actor never runs again. So over every run of
every plan, each output is documents followed by at most one error, and once it has its error it
never changes: a consumer that has seen the end of a stream has seen all of it.

* **`Exec.EndsOnce`** — every output is documents, then at most one error, sent by an
  operation that has returned.
* **`Exec.SendsDocs`**, **`Exec.StepSends`** — what one step of operation `i` appends to its own
  output: documents, then possibly one error as it returns. `step_stepSends` shows every step
  of every actor does that, from the primitive moves up.
* **`Exec.EndsOnce.move`**, **`Reachable.endsOnce`** — the step and run lemmas, from the
  operations `execute` registers (`Exec.start_endsOnce`).
* **`streams_end_once`** — over every run of every plan on a fresh checkpoint, every output has
  that shape, and an ended output stays as it is, its operation returned, in every later state. -/

namespace DocLayer

/-- **Every output ends once**: operation `k`'s output is documents, then at most one error, and
an operation whose output has its error has returned. -/
def Exec.EndsOnce (x : Exec) : Prop :=
  ∀ k l, x.sentAt k = some l → ∃ (ds : List ScanReturned) (ending : Option ErrorCode),
    l = ds.map .doc ++ (ending.map .error).toList ∧ (ending.isSome → x.actorAt k = some .finished)

/-- **A move of operation `i` that has appended only documents to its output.** -/
def Exec.SendsDocs (i : Nat) (x y : Exec) : Prop :=
  ∃ (l : List Msg) (ds : List ScanReturned), x.sentAt i = some l ∧ y.sentAt i = some (l ++ ds.map .doc)

/-- **What one step of operation `i` sends**: documents, and possibly then one error, with
which it returns. -/
def Exec.StepSends (i : Nat) (x y : Exec) : Prop :=
  Exec.SendsDocs i x y ∨ ∃ z e, Exec.SendsDocs i x z ∧ y = z.finish i e

namespace Exec.SendsDocs

variable {i : Nat} {x y : Exec}

theorem refl {l : List Msg} (hl : x.sentAt i = some l) : SendsDocs i x x := ⟨l, [], hl, by simpa⟩

/-- A move that leaves operation `i`'s output as it is. -/
theorem of_sentAt_eq (h : SendsDocs i x y) {z : Exec} (hz : z.sentAt i = y.sentAt i) :
    SendsDocs i x z := by
  obtain ⟨l, ds, hx, hy⟩ := h
  exact ⟨l, ds, hx, hz.trans hy⟩

theorem send (h : SendsDocs i x y) (d : ScanReturned) : SendsDocs i x (y.send i (.doc d)) := by
  obtain ⟨l, ds, hx, hy⟩ := h
  exact ⟨l, ds ++ [d], hx, by simp [hy]⟩

theorem setActor (h : SendsDocs i x y) (j : Nat) (a : Actor) : SendsDocs i x (y.setActor j a) :=
  h.of_sentAt_eq (by simp)

theorem popInput (h : SendsDocs i x y) (j : Nat) : SendsDocs i x (y.popInput j) := h.of_sentAt_eq (by simp)
theorem takePermit (h : SendsDocs i x y) : SendsDocs i x y.takePermit := h.of_sentAt_eq rfl
theorem releasePermit (h : SendsDocs i x y) : SendsDocs i x y.releasePermit := h.of_sentAt_eq rfl
theorem write (h : SendsDocs i x y) (e : Effect) : SendsDocs i x (y.write e) := h.of_sentAt_eq rfl
theorem insertDoc (h : SendsDocs i x y) : SendsDocs i x y.insertDoc := h.of_sentAt_eq rfl
theorem setCounter (h : SendsDocs i x y) (slot : Nat) (v : Int) : SendsDocs i x (y.setCounter slot v) :=
  h.of_sentAt_eq rfl

theorem onReceive (h : SendsDocs i x y) (kind : QueueKind) (d : ScanReturned) :
    SendsDocs i x (kind.onReceive d y) := h.of_sentAt_eq (by simp)

end Exec.SendsDocs

namespace Exec.StepSends

variable {i : Nat} {x y : Exec}

theorem finish (h : Exec.SendsDocs i x y) (e : ErrorCode) : StepSends i x (y.finish i e) :=
  .inr ⟨y, e, h, rfl⟩

theorem docs (h : Exec.SendsDocs i x y) : StepSends i x y := .inl h

end Exec.StepSends

/-! ## Every step sends documents, then at most one error -/

section Tails

variable {i : Nat} {x y : Exec}

open Exec.SendsDocs Exec.StepSends

theorem updateAfterDrain_stepSends (h : Exec.SendsDocs i x y) (st : Update) :
    Exec.StepSends i x (updateAfterDrain y i st) := by
  unfold updateAfterDrain
  split
  · exact docs (h.setActor _ _)
  · exact finish h _

theorem unionEndOfStream_stepSends (h : Exec.SendsDocs i x y) (b : Nat) (bOpen : Bool)
    (reopen : Bool → Bool → Union) : Exec.StepSends i x (unionEndOfStream y i b bOpen reopen) := by
  unfold unionEndOfStream
  split
  · split
    · exact finish (h.popInput _) _
    · exact docs (h.setActor _ _)
  · exact docs (h.setActor _ _)
  · exact finish h _

theorem pauOutput_stepSends (h : Exec.SendsDocs i x y) (st : ProjectAndUpdate) :
    Exec.StepSends i x (pauOutput y i st) := by
  unfold pauOutput
  split
  · exact finish (h.send _) _
  · exact finish h _

theorem pauProjectNew_stepSends (h : Exec.SendsDocs i x y) (st : ProjectAndUpdate) :
    Exec.StepSends i x (pauProjectNew y i st) := by
  unfold pauProjectNew
  split
  · exact docs (h.setActor _ _)
  · exact pauOutput_stepSends h st

theorem pauCommit_stepSends (h : Exec.SendsDocs i x y) (st : ProjectAndUpdate) :
    Exec.StepSends i x (pauCommit y i st) := by
  unfold pauCommit
  split
  · exact docs ((h.write _).setActor _ _)
  · exact pauProjectNew_stepSends h st

theorem pauMutate_stepSends (h : Exec.SendsDocs i x y) (st : ProjectAndUpdate) :
    Exec.StepSends i x (pauMutate y i st) := by
  unfold pauMutate
  split
  · exact docs ((h.write _).setActor _ _)
  · split
    · exact docs (h.setActor _ _)
    · exact pauCommit_stepSends h st

theorem pauProjectOld_stepSends (h : Exec.SendsDocs i x y) (st : ProjectAndUpdate) :
    Exec.StepSends i x (pauProjectOld y i st) := by
  unfold pauProjectOld
  split
  · exact docs (h.setActor _ _)
  · exact pauMutate_stepSends h st

theorem insertLoop_stepSends (h : Exec.SendsDocs i x y) (st : InsertDocs) :
    Exec.StepSends i x (insertLoop y i st) := by
  unfold insertLoop
  split
  · exact finish h _
  · exact docs (h.setActor _ _)

end Tails

variable {env : Env}

/-- **Every step of operation `i` sends documents, then at most one error as it returns.** Each
actor's result is a composition of the primitive moves, closed by the lemmas above. -/
theorem step_stepSends {x y : Exec} {i : Nat} {ev : Event} {l : List Msg} (hl : x.sentAt i = some l)
    (h : x.step env i ev = some y) : Exec.StepSends i x y := by
  have h0 := Exec.SendsDocs.refl hl
  simp only [Exec.sentAt, Option.map_eq_some'] at hl
  obtain ⟨o, ho, -⟩ := hl
  simp only [Exec.step, headQueueActor_eq, ho] at h
  revert h0 h
  generalize o.actor = b
  intro h0 h
  cases b <;> simp only [doPKScan, toDocInfo, doSinglePKLookup, headQueueStep, scanAndBuildIndex, doUpdate,
    doUnion, doSkip, projectAndUpdate, doIndexInsert, doInsert, reduceCtorEq] at h
  all_goals repeat' split at h
  all_goals cases h
  all_goals repeat' first
    | with_reducible exact h0
    | with_reducible apply Exec.StepSends.finish
    | with_reducible apply updateAfterDrain_stepSends
    | with_reducible apply unionEndOfStream_stepSends
    | with_reducible apply pauOutput_stepSends
    | with_reducible apply pauProjectNew_stepSends
    | with_reducible apply pauCommit_stepSends
    | with_reducible apply pauMutate_stepSends
    | with_reducible apply pauProjectOld_stepSends
    | with_reducible apply insertLoop_stepSends
    | with_reducible apply Exec.StepSends.docs
    | with_reducible apply Exec.SendsDocs.setActor
    | with_reducible apply Exec.SendsDocs.send
    | with_reducible apply Exec.SendsDocs.popInput
    | with_reducible apply Exec.SendsDocs.takePermit
    | with_reducible apply Exec.SendsDocs.releasePermit
    | with_reducible apply Exec.SendsDocs.write
    | with_reducible apply Exec.SendsDocs.insertDoc
    | with_reducible apply Exec.SendsDocs.setCounter
    | with_reducible apply Exec.SendsDocs.onReceive

/-! ## Over every run -/

section Run

variable {x y : Exec}

theorem Exec.op_of_step {i : Nat} {ev : Event} (h : x.step env i ev = some y) :
    ∃ o, x.op? i = some o ∧ o.actor ≠ .finished := by
  cases ho : x.op? i with
  | none => simp [Exec.step, ho] at h
  | some o => exact ⟨o, rfl, fun hf => by simp [Exec.step, ho, hf] at h⟩

/-- **A move of another operation leaves operation `k`'s output in its shape.** -/
theorem Exec.EndsOnce.frame (hx : x.EndsOnce) {i k : Nat} (hf : Exec.Frame i x y) (hk : k ≠ i)
    {l : List Msg} (hl : y.sentAt k = some l) :
    ∃ (ds : List ScanReturned) (ending : Option ErrorCode),
      l = ds.map .doc ++ (ending.map .error).toList ∧ (ending.isSome → y.actorAt k = some .finished) := by
  obtain ⟨ds, ending, rfl, hend⟩ := hx k l (by rw [← hf.sentAt k hk, hl])
  exact ⟨ds, ending, rfl, fun h => (hf.actorAt k hk).trans (hend h)⟩

/-- **A step keeps every output ending once**: the mover had not returned, so its output had no
error yet; it appends documents, and at most one error as it returns. -/
theorem Exec.EndsOnce.step (hx : x.EndsOnce) {i : Nat} {ev : Event} (h : x.step env i ev = some y) :
    y.EndsOnce := by
  intro k l hl
  by_cases hk : k = i
  swap
  · exact hx.frame (step_frame h) hk hl
  subst hk
  obtain ⟨o, ho, hfin⟩ := Exec.op_of_step h
  have hl0 : x.sentAt k = some o.output.sent := by simp [Exec.sentAt, ho]
  obtain ⟨ds, ending, hds, hend⟩ := hx k _ hl0
  -- the mover's output has no error yet
  obtain rfl : ending = none := by
    cases ending
    · rfl
    · exact absurd (by simpa [Exec.actorAt, ho] using hend rfl) hfin
  rcases step_stepSends hl0 h with ⟨l', ds', hx', hy'⟩ | ⟨z, e, ⟨l', ds', hx', hz'⟩, rfl⟩
  · -- documents only
    rw [hx'] at hl0
    cases hl0
    rw [hy', hds] at hl
    exact ⟨ds ++ ds', none, by simpa using hl.symm, by simp⟩
  · -- documents, then the error, as it returns
    rw [hx'] at hl0
    cases hl0
    simp only [Exec.finish_eq, Exec.setActor_sentAt, Exec.send_sentAt, if_true, hz', hds,
      Option.map_some', Option.some.injEq] at hl
    refine ⟨ds ++ ds', some e, by simpa using hl.symm, fun _ => ?_⟩
    obtain ⟨oz, hoz, -⟩ := Option.map_eq_some'.1 hz'
    simp only [Exec.finish_eq, Exec.setActor_actorAt, Exec.send_actorAt, if_true]
    simp [Exec.actorAt, hoz]

/-- **Every move keeps every output ending once**: a step by the lemma above, the consumer's
take as a move of no operation. -/
theorem Exec.EndsOnce.move (hx : x.EndsOnce) {root : Nat} {c : Choice} (h : x.move env root c = some y) :
    y.EndsOnce := by
  cases c with
  | step i ev => exact hx.step h
  | consume => exact fun k _ hl => hx.frame (consume_frame h (k + 1)) (by omega) hl

/-- **`execute` registers outputs that end once**: empty, or `end_of_stream` of a returned
operation. -/
theorem Exec.start_endsOnce {plan : Plan} {cp : PlanCheckpoint} {root : Nat} (hcp : cp.ops = [])
    (hs : Exec.start env plan cp = some (x, root)) : x.EndsOnce := by
  obtain ⟨⟨cp', r⟩, hexec, he⟩ := Option.map_eq_some'.1 hs
  simp only [Prod.mk.injEq] at he
  obtain ⟨rfl, rfl⟩ := he
  obtain ⟨new, hnew, hfresh⟩ := Plan.execute_appendsFresh plan hexec
  rw [hcp, List.nil_append] at hnew
  intro k l hl
  obtain ⟨o, ho, rfl⟩ := Option.map_eq_some'.1 hl
  rcases (hfresh o (hnew ▸ List.mem_iff_getElem?.2 ⟨k, ho⟩)).2 with h0 | ⟨hfin, heos⟩
  · exact ⟨[], none, by simp [h0], by simp⟩
  · exact ⟨[], some .endOfStream, by simp [heos], fun _ => by simp [Exec.actorAt, ho, hfin]⟩

theorem Reachable.endsOnce {plan : Plan} {cp : PlanCheckpoint} {root : Nat} (hcp : cp.ops = [])
    (hx : Reachable env plan cp x root) : x.EndsOnce := by
  induction hx with
  | start hs => exact Exec.start_endsOnce hcp hs
  | move c _ hm ih => exact ih.move hm

/-- **A returned operation's output never changes again**: no later move steps it, and a move of
another operation leaves it alone. -/
theorem Exec.Reaches.finished_frozen {root k : Nat} {l : List Msg} (hfin : x.actorAt k = some .finished)
    (hl : x.sentAt k = some l) (hr : Exec.Reaches env root x y) :
    y.actorAt k = some .finished ∧ y.sentAt k = some l := by
  induction hr with
  | refl => exact ⟨hfin, hl⟩
  | @tail z w _ hm ih =>
    obtain ⟨c, hc⟩ := hm
    obtain ⟨ha, hs⟩ := ih
    have keep : ∀ i, k ≠ i → Exec.Frame i z w →
        w.actorAt k = some .finished ∧ w.sentAt k = some l := fun i hk hf =>
      ⟨(hf.actorAt k hk).trans ha, (hf.sentAt k hk).trans hs⟩
    cases c with
    | step i ev =>
      by_cases hk : k = i
      · subst hk
        obtain ⟨o, ho, hnf⟩ := Exec.op_of_step hc
        exact absurd (by simpa [Exec.actorAt, ho] using ha) hnf
      · exact keep i hk (step_frame hc)
    | consume => exact keep (k + 1) (by omega) (consume_frame hc (k + 1))

end Run

/-- **Every output ends once, and stays ended.** Over every run of every plan on a fresh
checkpoint, every operation's output is documents followed by at most one error; and once it
has its error, the operation has returned, and in every later state of the run its output is
the same. -/
theorem streams_end_once {plan : Plan} {cp : PlanCheckpoint} {x : Exec} {root k : Nat} {l : List Msg}
    (hcp : cp.ops = []) (hx : Reachable env plan cp x root) (hl : x.sentAt k = some l) :
    (∃ (ds : List ScanReturned) (ending : Option ErrorCode), l = ds.map .doc ++ (ending.map .error).toList) ∧
      ∀ e, .error e ∈ l → ∀ y, Exec.Reaches env root x y →
        y.sentAt k = some l ∧ y.actorAt k = some .finished := by
  obtain ⟨ds, ending, rfl, hend⟩ := hx.endsOnce hcp k l hl
  refine ⟨⟨ds, ending, rfl⟩, fun e he y hr => ?_⟩
  -- an error in the output is its ending, so the operation has returned
  have hsome : ending.isSome := by
    cases ending
    · simp at he
    · rfl
  exact (Exec.Reaches.finished_frozen (hend hsome) hl hr).symm


/-- A table scan of two documents run to its end: its output, the two documents then
`end_of_stream`, has that shape and stays as it is. -/
theorem tableScan_twoDocs_ends_once :
    ∃ x l, Reachable twoKeyDocEnv .tableScan (PlanCheckpoint.new 10) x 0 ∧ x.sentAt 0 = some l ∧
      .error .endOfStream ∈ l ∧
      ((∃ (ds : List ScanReturned) (ending : Option ErrorCode), l = ds.map .doc ++ (ending.map .error).toList) ∧
        ∀ e, .error e ∈ l → ∀ y, Exec.Reaches twoKeyDocEnv 0 x y →
          y.sentAt 0 = some l ∧ y.actorAt 0 = some .finished) := by
  have hx : Reachable twoKeyDocEnv .tableScan (PlanCheckpoint.new 10) _ 0 :=
    Reachable.of_run rfl (show Exec.run twoKeyDocEnv 0 _ [.step 0 .input, .step 0 .complete,
      .step 0 .input, .step 0 .input, .step 0 .complete, .step 0 .input] = some _ from rfl)
  exact ⟨_, _, hx, rfl, by decide, streams_end_once rfl hx rfl⟩

end DocLayer
