import DocLayer.NonIsolated

/-! # `findAndModify`

`FindAndModifyPlan` looks for the first document of its subplan the way `doNonIsolatedRO`
reads: in segments, each on the checkpoint the previous one's `stopAndCheckpoint()` returned,
the timer firing after a second. The first document read, or the subplan's `end_of_stream`,
ends the search; in the transaction of that last segment the wrapper then updates the
document found, or upserts when none was and an upsert was asked for, commits, sends the
(projected) document on and ends its output.

* **`FindAndModify`** — the actor's state and its moves. The steps after the search run with
  nothing else: the subplan is stopped. Their futures (the projection, the update or insert,
  `commitChanges()`, the commit) are taken together: they all complete (`complete`) or one
  fails (`fail`), and the transaction commits only in the first case. After the commit the
  wrapper takes a permit of the outer checkpoint's lock (`outerLock->take()`), then sends its
  reply and ends.
* **`findAndModify_keeps_outer_permit`** — over every run, the wrapper commits at most one
  transaction, holding either the update of the one document it found or the upsert, never
  both; ended by `end_of_stream`, it holds one outer permit, and its output holds at most
  one document, none when no document was found and the new version of an upsert was not
  asked for.
* **`findAndModify_upserts_beside_match`** — for every collection holding `k`, the search
  over `PrimaryKeyLookupPlan(k, k)` can lose `k` at its first checkpoint; it then upserts a
  new document beside `k` and updates nothing. -/

namespace DocLayer

/-- **Where `findAndModify` is.** -/
inductive FindPhase
  /-- In the segment loop. -/
  | searching
  /-- Out of the loop, in the last segment's transaction, with `firstDoc` if `any`. -/
  | modifying (firstDoc : Option ScanReturned)
  deriving Repr

/-- **`findAndModify`**: the current segment's execution of the subplan and the index of its
output `docs`, the phase, the wrapper's output, and `outerLock`, the document-finished lock of
the checkpoint the wrapper was executed on. `committed` records what the database holds: the
writes of the transaction that committed. -/
structure FindAndModify where
  inner : Exec
  docs : Nat
  phase : FindPhase
  committed : List Effect
  output : Stream
  outerLock : FlowControlLock
  deriving Repr

namespace FindAndModify

variable (env : Env) (subPlan : Plan) (upsert projectNew : Bool)

/-- **The first segment**, on `new PlanCheckpoint`. The plan runs on a `new PlanCheckpoint`
too (`executeUntilCompletion`), whose lock has as many permits and none taken. -/
def start (permits : Nat) : Option FindAndModify :=
  (Exec.start env subPlan (PlanCheckpoint.new permits)).map fun s =>
    ⟨s.1, s.2, .searching, [], .empty, (PlanCheckpoint.new permits).flowControlLock⟩

/-- **The writes of the last transaction**: `updateOp->update(firstDoc)` when a document was
found, else `upsertOp->insert(...)` of the one document the wrapper inserts when there is an
upsert; then `firstDoc->commitChanges()` when either happened. -/
def writes : Option ScanReturned → List Effect
  | some d => [.update d.doc, .commitChanges d.doc]
  | none => if upsert then [.insert (.inserted 0), .commitChanges (.inserted 0)] else []

/-- **What the wrapper sends on**: the document found, or the upserted one (scan id `-1`) when
the new version is asked for; the projection's contents are not modelled. -/
def reply : Option ScanReturned → List Msg
  | some d => [.doc d]
  | none => if projectNew && upsert then [.doc ⟨.inserted 0, -1, []⟩] else []

/-- **Out of the loop**: `innerCheckpoint->stop()` cancels all ongoing work. -/
def found (r : FindAndModify) (firstDoc : Option ScanReturned) : FindAndModify :=
  { r with inner := r.inner.stop env, phase := .modifying firstDoc }

/-- **One move of `findAndModify`**; none once its output has ended. -/
def move (r : FindAndModify) (m : WrapperMove) : Option FindAndModify :=
  if r.output.ended then none else
  match r.phase, m with
  | .searching, .inner i ev => (r.inner.step env i ev).map fun y => { r with inner := y }
  | .searching, .next =>
    match r.inner.peek r.docs with
    | some (.doc d) => some (found env { r with inner := (r.inner.popInput r.docs).releasePermit } (some d))
    | some (.error .endOfStream) => some (found env r none)
    | some (.error e) => some { r with inner := r.inner.stop env, output := r.output.send (.error e) }
    | none => none
  | .searching, .timeout =>
    if r.inner.quiescent r.docs then
      (Exec.start env subPlan (r.inner.cp.stopAndCheckpoint env).next).map fun s =>
        { r with inner := s.1, docs := s.2 }
    else none
  | .modifying firstDoc, .complete =>
    if r.outerLock.canTake then
      some { r with committed := writes upsert firstDoc, outerLock := r.outerLock.take,
                    output := { r.output with
                      sent := r.output.sent ++ reply upsert projectNew firstDoc ++ [.error .endOfStream] } }
    else none
  | .modifying _, .fail => some { r with output := r.output.send (.error .retryable) }
  | _, _ => none

/-- **A sequence of moves**, replayed from `r`. -/
def run (r : FindAndModify) : List WrapperMove → Option FindAndModify
  | [] => some r
  | m :: ms => (r.move env subPlan upsert projectNew m).bind fun r' => run r' ms

/-! ### One commit, one outer permit -/

/-- **Where a run of `findAndModify` stands outside its subplan**, from the outer lock
`lock0`: nothing sent, committed or taken; ended by an error other than `end_of_stream`, with
nothing committed or taken; or ended after its commit, holding the writes of one
transaction and one outer permit, its reply then `end_of_stream` sent. -/
def Settled (lock0 : FlowControlLock) (r : FindAndModify) : Prop :=
  (r.output.sent = [] ∧ r.committed = [] ∧ r.outerLock = lock0) ∨
    (∃ e, e ≠ .endOfStream ∧ r.output.sent = [.error e] ∧ r.committed = [] ∧ r.outerLock = lock0) ∨
    ∃ firstDoc, r.committed = writes upsert firstDoc ∧ r.outerLock = lock0.take ∧
      r.output.sent = reply upsert projectNew firstDoc ++ [.error .endOfStream]

theorem Settled.move {lock0 : FlowControlLock} {r r' : FindAndModify} {m : WrapperMove}
    (h : Settled upsert projectNew lock0 r) (hm : r.move env subPlan upsert projectNew m = some r') :
    Settled upsert projectNew lock0 r' := by
  unfold FindAndModify.move at hm
  split at hm
  · cases hm
  -- the output is open: nothing has been sent, committed or taken
  obtain ⟨hsent, hnil, hlock⟩ : r.output.sent = [] ∧ r.committed = [] ∧ r.outerLock = lock0 := by
    rcases h with h | ⟨e, -, hs, -⟩ | ⟨_, -, -, hs⟩
    · exact h
    all_goals simp [Stream.ended, hs] at *
  split at hm
  · -- a step of the subplan
    obtain ⟨y, -, rfl⟩ := Option.map_eq_some'.1 hm
    exact .inl ⟨hsent, hnil, hlock⟩
  · -- `waitNext(docs)`: a document or `end_of_stream` ends the search, another error the run
    split at hm <;> simp only [Option.some.injEq, reduceCtorEq] at hm <;> subst hm
    · exact .inl ⟨hsent, hnil, hlock⟩
    · exact .inl ⟨hsent, hnil, hlock⟩
    · rename_i e hne _
      exact .inr (.inl ⟨e, hne, by simp [hsent], hnil, hlock⟩)
  · -- the timer fires
    split at hm
    · obtain ⟨s, -, rfl⟩ := Option.map_eq_some'.1 hm
      exact .inl ⟨hsent, hnil, hlock⟩
    · cases hm
  · -- the transaction commits and `outerLock->take()` returns
    split at hm
    · cases hm
      exact .inr (.inr ⟨_, rfl, by rw [hlock], by simp [hsent]⟩)
    · cases hm
  · -- one of its futures fails
    cases hm
    exact .inr (.inl ⟨.retryable, by decide, by simp [hsent], hnil, hlock⟩)
  · cases hm

theorem Settled.run {lock0 : FlowControlLock} {r r' : FindAndModify} {ms : List WrapperMove}
    (h : Settled upsert projectNew lock0 r) (hr : run env subPlan upsert projectNew r ms = some r') :
    Settled upsert projectNew lock0 r' := by
  induction ms generalizing r with
  | nil => cases hr; exact h
  | cons m ms ih =>
    obtain ⟨r1, h1, hrest⟩ := Option.bind_eq_some.1 hr
    exact ih (h.move env subPlan upsert projectNew h1) hrest

end FindAndModify

/-! ### An upsert beside an existing match -/

/-- **`findAndModify` can upsert beside the document it should update.** For every collection
holding a key `k`, `PrimaryKeyLookupPlan(k, k)` run uninterrupted delivers `k`. Under
`findAndModify` with an upsert, the first segment's timer may fire while the lookup's `get`
is outstanding; the next segment's lookup fails its bounds check and ends at once, so the
search ends with no document found: the wrapper commits the insert of a new document and
no update, and sends nothing. -/
theorem findAndModify_upserts_beside_match {env : Env} {k : Key} (hk : k ∈ env.table)
    (hlt : k < allKeysEnd) (permits : Nat) :
    (∃ x y, Exec.start env (.primaryKeyLookup (some k) (some k)) (PlanCheckpoint.new permits) = some (x, 0) ∧
      Exec.run env 0 x [.step 0 .complete, .step 0 .complete] = some y ∧
      y.completed 0 = true ∧ y.delivered 0 = [⟨.stored k, 0, k⟩]) ∧
    ∃ r0 r, FindAndModify.start env (.primaryKeyLookup (some k) (some k)) permits = some r0 ∧
      FindAndModify.run env (.primaryKeyLookup (some k) (some k)) true false r0
        [.timeout, .next, .complete] = some r ∧
      r.committed = [.insert (.inserted 0), .commitChanges (.inserted 0)] ∧
      r.output.sent = [.error .endOfStream] := by
  obtain ⟨y, hy⟩ := pointLookup_delivers hk permits
  refine ⟨⟨_, y, pointLookup_start hlt permits, hy⟩,
    ⟨pointLookupExec k permits, 0, .searching, [], .empty, (PlanCheckpoint.new permits).flowControlLock⟩, ?_⟩
  have hfree : (PlanCheckpoint.new permits).flowControlLock.canTake = true := by
    simp [FlowControlLock.canTake, PlanCheckpoint.new]
  simp [FindAndModify.start, pointLookup_start hlt, FindAndModify.run, FindAndModify.move,
    pointLookupExec_quiescent, pointLookup_resume hlt, Exec.peek, Exec.op?, Stream.peek,
    FindAndModify.found, FindAndModify.writes, FindAndModify.reply, Stream.ended, hfree]

theorem findAndModify_upserts_beside_docKey :
    docKey ∈ oneDocEnv.table ∧ docKey < allKeysEnd ∧
    (∃ x y, Exec.start oneDocEnv (.primaryKeyLookup (some docKey) (some docKey)) (PlanCheckpoint.new 100) =
        some (x, 0) ∧
      Exec.run oneDocEnv 0 x [.step 0 .complete, .step 0 .complete] = some y ∧
      y.completed 0 = true ∧ y.delivered 0 = [⟨.stored docKey, 0, docKey⟩]) ∧
    ∃ r0 r, FindAndModify.start oneDocEnv (.primaryKeyLookup (some docKey) (some docKey)) 100 = some r0 ∧
      FindAndModify.run oneDocEnv (.primaryKeyLookup (some docKey) (some docKey)) true false r0
        [.timeout, .next, .complete] = some r ∧
      r.committed = [.insert (.inserted 0), .commitChanges (.inserted 0)] ∧
      r.output.sent = [.error .endOfStream] :=
  ⟨by decide, by decide, findAndModify_upserts_beside_match (by decide) (by decide) 100⟩

end DocLayer
