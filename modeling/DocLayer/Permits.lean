import DocLayer.ScanOrder

/-! # The permit an index insert takes

`doIndexInsert` takes a permit from the document-finished lock before it reads the existing
indexes. When one of them has the new index's key spec, it turns `index_already_exists` into
`end_of_stream`, and when one has its name it ends with `index_name_taken`: in both cases no
document is sent, so no consumer ever releases that permit.

* **`IndexClash`** — an existing index has the key spec or the name of the new one.
* **`indexInsert_clash_keeps_permit`** — every run of `IndexInsertPlan` that meets a clash
  and has ended its output holds one more permit than it started with, and has delivered
  nothing.
* **`indexExists_leaks_permit`** — such a run, on a collection whose index has the same key
  spec. -/

namespace DocLayer

/-- **An existing index clashes with the new one**: it has the same key spec or the same
name. -/
def IndexClash (env : Env) (keySpec : List Key) (name : Nat) : Prop :=
  ∃ ix ∈ env.existingIndexes, ix.1 = keySpec ∨ ix.2 = name

/-- **The states of an index insert that meets a clash**, on a checkpoint whose lock had
`a0` permits taken: waiting for its permit, reading the indexes with the permit taken, or
finished with one error sent and the permit still taken. -/
def InsertPhase (keySpec : List Key) (name : Nat) (a0 : Int) (x : Exec) : Prop :=
  (x.cp.ops = [⟨.indexInsert ⟨keySpec, name, .permit⟩, ⟨[], 0⟩⟩] ∧ x.cp.flowControlLock.active = a0) ∨
  (x.cp.ops = [⟨.indexInsert ⟨keySpec, name, .readIndexes⟩, ⟨[], 0⟩⟩] ∧
    x.cp.flowControlLock.active = a0 + 1) ∨
  (∃ e t, x.cp.ops = [⟨.finished, ⟨[.error e], t⟩⟩] ∧ x.cp.flowControlLock.active = a0 + 1)

variable {env : Env} {keySpec : List Key} {name : Nat} {a0 : Int}

/-- **Every move of an index insert that meets a clash stays in its phases.** -/
theorem InsertPhase.move (hclash : IndexClash env keySpec name) {x y : Exec} {c : Choice}
    (h : InsertPhase keySpec name a0 x) (hm : x.move env 0 c = some y) :
    InsertPhase keySpec name a0 y := by
  rcases h with ⟨hops, hact⟩ | ⟨hops, hact⟩ | ⟨e, t, hops, hact⟩
  · -- waiting for the permit: only taking it can happen
    cases c with
    | consume => simp [Exec.move, Exec.consume, Exec.peek, Exec.op?, hops, Stream.peek] at hm
    | step i ev =>
      rcases i with _ | i <;> simp only [Exec.move, Exec.step, Exec.op?, hops] at hm
      · cases ev <;> simp [doIndexInsert] at hm
        obtain ⟨-, rfl⟩ := hm
        exact Or.inr (Or.inl ⟨by simp [Exec.setActor, Exec.takePermit, hops],
          by simp [Exec.setActor, Exec.takePermit, FlowControlLock.take, hact]⟩)
      · simp at hm
  · -- reading the indexes: the clash ends the output, the permit still taken
    cases c with
    | consume => simp [Exec.move, Exec.consume, Exec.peek, Exec.op?, hops, Stream.peek] at hm
    | step i ev =>
      rcases i with _ | i <;> simp only [Exec.move, Exec.step, Exec.op?, hops] at hm
      · cases ev <;> simp only [List.getElem?_cons_zero, doIndexInsert, reduceCtorEq] at hm
        split at hm
        · split at hm <;> cases hm
          · exact Or.inr (Or.inr ⟨.endOfStream, 0, by simp [Exec.setActor, Exec.send, hops, Stream.send], hact⟩)
          · exact Or.inr (Or.inr ⟨.indexNameTaken, 0, by simp [Exec.setActor, Exec.send, hops, Stream.send],
              hact⟩)
        · rename_i hnone
          obtain ⟨ix, hix, hc⟩ := hclash
          exact absurd (List.find?_eq_none.1 hnone ix hix) (by simp only [decide_eq_true_eq]; tauto)
      · simp at hm
  · -- finished: the consumer takes the error, which releases nothing
    cases c with
    | consume =>
      simp only [Exec.move, Exec.consume, Exec.peek, Exec.op?, hops, List.getElem?_cons_zero,
        Option.some_bind, Stream.peek] at hm
      rcases t with _ | t
      · cases hm
        exact Or.inr (Or.inr ⟨e, 1, by simp [Exec.popInput, hops, Stream.pop], hact⟩)
      · simp at hm
    | step i ev =>
      rcases i with _ | i <;> simp [Exec.move, Exec.step, Exec.op?, hops] at hm

/-- **Every reachable state of an index insert that meets a clash is in one of its phases**,
its output being operation `0`. -/
theorem insertPhase_of_reachable {cp : PlanCheckpoint} (hcp : cp.ops = [])
    (hclash : IndexClash env keySpec name) {x : Exec} {root : Nat}
    (hx : Reachable env (.indexInsert keySpec name) cp x root) :
    root = 0 ∧ InsertPhase keySpec name cp.flowControlLock.active x := by
  induction hx with
  | start h =>
    simp only [Exec.start, Plan.execute, Option.pure_def, Option.map_some', Option.some.injEq,
      Prod.ext_iff] at h
    obtain ⟨rfl, rfl⟩ := h
    exact ⟨by simp [hcp], Or.inl ⟨by simp [hcp, Stream.empty], rfl⟩⟩
  | move c _ hm ih =>
    obtain ⟨rfl, hp⟩ := ih
    exact ⟨rfl, hp.move hclash hm⟩

/-- **An index insert that meets a clash never gives its permit back.** Once the output of
`IndexInsertPlan`, run on a checkpoint with no operations, has ended, the lock has one permit
more taken than it started with, and no document was delivered for a consumer to release it
with. -/
theorem indexInsert_clash_keeps_permit {cp : PlanCheckpoint} (hcp : cp.ops = [])
    (hclash : IndexClash env keySpec name) {x : Exec} {root : Nat}
    (hx : Reachable env (.indexInsert keySpec name) cp x root) (hend : x.outputEnded root = true) :
    x.cp.flowControlLock.active = cp.flowControlLock.active + 1 ∧ x.delivered root = [] := by
  obtain ⟨rfl, hp⟩ := insertPhase_of_reachable hcp hclash hx
  rcases hp with ⟨hops, -⟩ | ⟨hops, -⟩ | ⟨e, t, hops, hact⟩
  all_goals simp [Exec.outputEnded, Exec.delivered, Exec.op?, hops, Stream.ended, Stream.docs,
    Msg.toDoc?] at hend ⊢
  exact hact

/-- **A collection with one index**, of key spec `[[1]]` and name `3`. -/
def indexedEnv : Env := { emptyEnv with existingIndexes := [([[1]], 3)] }

/-- **Creating an index with the key spec of an existing one keeps a permit.** The insert
takes its permit, finds the index, ends its output with `end_of_stream`, and the consumer
takes that: nothing is held anywhere, yet one permit is taken. -/
theorem indexExists_leaks_permit :
    ∃ x, Reachable indexedEnv (.indexInsert [[1]] 5) (PlanCheckpoint.new 100) x 0 ∧
      x.outputEnded 0 = true ∧ x.peek 0 = none ∧
      x.cp.flowControlLock.active = 1 ∧ x.delivered 0 = [] := by
  have hr : Reachable indexedEnv (.indexInsert [[1]] 5) (PlanCheckpoint.new 100) _ 0 :=
    Reachable.of_run rfl (show Exec.run indexedEnv _ _ [.step 0 .complete, .step 0 .complete,
      .consume] = some _ from rfl)
  have hclash : IndexClash indexedEnv [[1]] 5 := ⟨_, List.mem_singleton_self _, Or.inl rfl⟩
  obtain ⟨ha, hd⟩ := indexInsert_clash_keeps_permit rfl hclash hr (by decide)
  exact ⟨_, hr, by decide, by decide, ha, hd⟩

end DocLayer
