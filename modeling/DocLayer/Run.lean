import DocLayer.Stop

/-! # Runs of one execution

A run starts from the operations `Plan::execute` registers and takes steps: any operation may
be woken by any event its state admits (`Exec.step`), and the consumer of the plan's output
(`executeUntilCompletion`) may take the next document and release its permit. The order of
steps is free: it stands for every order in which the reads, permits and per-document
futures can complete.

* **`Exec.start`** — the execution right after `execute`, with the index of its output.
* **`Exec.consume`** — the final consumer taking one message.
* **`Exec.run`** — a sequence of moves replayed; **`Reachable`** — every state some run
  reaches; **`Exec.Reaches`** — the states reached from a given one.
* **`Exec.reaches_of_measure`** — the shape of every production lemma: from each state of an
  invariant, the goal holds or a move lowers a count of the moves left.
* **`Exec.completed`, `Exec.failed`** — the output ended by `end_of_stream`; some operation
  ended its output with another error.
* **`SoleProducer`, `SoleInv`** — a plan of one operation: what its step lemmas give, the
  states every run keeps it in, and (`SoleInv.produces`) a run sending all it owes.
* **`Actor.waitingOn`, `Exec.quiescent`** — Flow delivers a message to an actor waiting on
  its stream at once, so when no plan actor is on the call stack (the precondition of
  `stopAndCheckpoint`) every stream an actor is waiting on is empty. -/

namespace DocLayer

/-- **The execution of `plan` on `cp`** right after `execute`, and the index of its output
operation; `none` when `execute` throws. -/
def Exec.start (env : Env) (plan : Plan) (cp : PlanCheckpoint) : Option (Exec × Nat) :=
  (plan.execute env cp).map fun r => (⟨r.1, [], 0⟩, r.2)

/-- **The final consumer takes the next message of the output** (operation `root`), releasing
the permit of a document, as `executeUntilCompletion` does. -/
def Exec.consume (x : Exec) (root : Nat) : Option Exec :=
  match x.peek root with
  | some (.doc _) => some (x.popInput root).releasePermit
  | some (.error _) => some (x.popInput root)
  | none => none

/-- **A move of a run**: wake operation `i` with `ev`, or let the final consumer take a
message. -/
inductive Choice
  | step (i : Nat) (ev : Event)
  | consume
  deriving DecidableEq, Repr

/-- **One move** of an execution whose output is operation `root`. -/
def Exec.move (env : Env) (root : Nat) (x : Exec) : Choice → Option Exec
  | .step i ev => x.step env i ev
  | .consume => x.consume root

/-- **A sequence of moves**, replayed from `x`; `none` if one of them cannot happen. -/
def Exec.run (env : Env) (root : Nat) : Exec → List Choice → Option Exec
  | x, [] => some x
  | x, c :: rest => (x.move env root c).bind fun y => Exec.run env root y rest

/-- **The states a run of `plan` on `cp` reaches**, with the index of the plan's output. -/
inductive Reachable (env : Env) (plan : Plan) (cp : PlanCheckpoint) : Exec → Nat → Prop
  | start {x : Exec} {root : Nat} : Exec.start env plan cp = some (x, root) →
      Reachable env plan cp x root
  | move {x y : Exec} {root : Nat} (c : Choice) : Reachable env plan cp x root →
      x.move env root c = some y → Reachable env plan cp y root

/-- **A replayed sequence of moves ends in a reachable state.** -/
theorem Reachable.run {env : Env} {plan : Plan} {cp : PlanCheckpoint} {root : Nat} :
    ∀ {x y : Exec} {cs : List Choice}, Reachable env plan cp x root →
      Exec.run env root x cs = some y → Reachable env plan cp y root
  | x, y, [], hx, h => by cases h; exact hx
  | x, y, c :: rest, hx, h => by
    simp only [Exec.run, Option.bind_eq_some] at h
    obtain ⟨z, hz, hrest⟩ := h
    exact Reachable.run (Reachable.move c hx hz) hrest

/-- **A run from the start**: the moves replayed from the state `execute` leaves. -/
theorem Reachable.of_run {env : Env} {plan : Plan} {cp : PlanCheckpoint} {x y : Exec} {root : Nat}
    {cs : List Choice} (hs : Exec.start env plan cp = some (x, root))
    (h : Exec.run env root x cs = some y) : Reachable env plan cp y root :=
  Reachable.run (Reachable.start hs) h

/-- **`y` is reached from `x`** by moves of an execution whose output is operation `root`. -/
def Exec.Reaches (env : Env) (root : Nat) : Exec → Exec → Prop :=
  Relation.ReflTransGen fun x y => ∃ c, x.move env root c = some y

/-- **A replayed sequence of moves reaches its result.** -/
theorem Exec.Reaches.of_run {env : Env} {root : Nat} :
    ∀ {x y : Exec} {cs : List Choice}, Exec.run env root x cs = some y → Exec.Reaches env root x y
  | x, y, [], h => by cases h; exact .refl
  | x, y, c :: rest, h => by
    simp only [Exec.run, Option.bind_eq_some] at h
    obtain ⟨z, hz, hrest⟩ := h
    exact .head ⟨c, hz⟩ (Exec.Reaches.of_run hrest)

/-- **A run to a goal exists** when, from every state of an invariant, either the goal holds or
some move leads to a state of the invariant at a smaller measure `n`. -/
theorem Exec.reaches_of_measure {env : Env} {root : Nat} (I : Nat → Exec → Prop) (G : Exec → Prop)
    (h : ∀ n x, I n x → G x ∨ ∃ m y, (∃ c, x.move env root c = some y) ∧ I m y ∧ m < n) :
    ∀ n x, I n x → ∃ y, Exec.Reaches env root x y ∧ G y := by
  intro n
  induction n using Nat.strong_induction_on with
  | _ n ih =>
    intro x hx
    rcases h n x hx with hG | ⟨m, y, hxy, hy, hlt⟩
    · exact ⟨x, .refl, hG⟩
    · obtain ⟨z, hyz, hz⟩ := ih m hlt y hy
      exact ⟨z, .head hxy hyz, hz⟩

/-- **The states reached from a reachable state are reachable.** -/
theorem Reachable.reaches {env : Env} {plan : Plan} {cp : PlanCheckpoint} {root : Nat} {x y : Exec}
    (hx : Reachable env plan cp x root) (h : Exec.Reaches env root x y) : Reachable env plan cp y root := by
  induction h with
  | refl => exact hx
  | tail _ hm ih =>
    obtain ⟨c, hc⟩ := hm
    exact .move c ih hc

/-- **The streams actor `a` is waiting on**: those it is suspended on in a `waitNext`, or in a
`choose` over one. -/
def Actor.waitingOn : Actor → List Nat
  | .headQueue _ st => if st.inputEnded then [] else [st.input]
  | .buildIndex st => if st.marking || st.inputEnded then [] else [st.input]
  | .update st => if st.wait = .main true then [st.input] else []
  | .union st => (if st.aOpen then [st.a] else []) ++ (if st.bOpen then [st.b] else [])
  | .skip st => [st.input]
  | .projectAndUpdate st => if st.wait = .input then [st.input] else []
  | _ => []

/-- **No plan actor is on the call stack**: every stream an actor, or the final consumer,
waits on is empty — a message sent to a waiting actor is handled at once. -/
def Exec.quiescent (x : Exec) (root : Nat) : Bool :=
  x.cp.ops.all (fun o => o.actor.waitingOn.all fun j => x.peek j = none) && x.peek root = none

/-- Whether the plan's output (operation `root`) has been ended. -/
def Exec.outputEnded (x : Exec) (root : Nat) : Bool :=
  ((x.op? root).map fun o => o.output.ended).getD false

/-- **Whether the run has completed**: the plan's output (operation `root`) has been ended by
`end_of_stream`, not by an error. -/
def Exec.completed (x : Exec) (root : Nat) : Bool :=
  ((x.op? root).map fun o => o.output.sent.contains (.error .endOfStream)).getD false

/-- **Whether an operation of the run has failed**: some output carries an error other than
`end_of_stream` — a read, a future or an input failed. -/
def Exec.failed (x : Exec) : Bool :=
  x.cp.ops.any fun o => o.output.sent.any Msg.isFailure

/-- **A run has completed once the output it has sent carries `end_of_stream`.** -/
theorem Exec.completed_of_sentAt {x : Exec} {root : Nat} {l : List Msg} (h : x.sentAt root = some l) :
    x.completed root = l.contains (.error .endOfStream) := by
  simp only [Exec.sentAt, Option.map_eq_some'] at h
  obtain ⟨o, ho, rfl⟩ := h
  simp [Exec.completed, ho]

/-- **The consumer only takes a message of the output.** -/
theorem Exec.consume_ops {x y : Exec} {root : Nat} (h : x.consume root = some y) :
    y.cp.ops = x.cp.ops.modify (fun o => { o with output := o.output.pop }) root := by
  unfold Exec.consume at h
  split at h <;> cases h <;> rfl

/-- The documents the plan has delivered on its output. -/
def Exec.delivered (x : Exec) (root : Nat) : List ScanReturned :=
  ((x.op? root).map fun o => o.output.docs).getD []

/-- **The consumer can take a message whenever the output holds one.** -/
theorem Exec.consume_of_peek {x : Exec} {root : Nat} {m : Msg} (h : x.peek root = some m) :
    ∃ y, x.consume root = some y :=
  Option.isSome_iff_exists.1 (by cases m <;> simp [Exec.consume, h])

/-! ## A plan of one operation -/

section Sole

variable {env : Env} {R : Actor → List Msg → Prop} {owed : List Msg} {moves : Actor → Nat}
  {active0 : Int} {x y : Exec} {a : Actor} {l : List Msg} {t : Nat}

/-- **The final consumer of a plan's only operation** takes its next message, giving the
permit of a document back. -/
theorem consume_only (hops : x.cp.ops = [⟨a, ⟨l, t⟩⟩]) (hm : x.consume 0 = some y) :
    ∃ m, l[t]? = some m ∧ y.cp.ops = [⟨a, ⟨l, t + 1⟩⟩] ∧
      y.cp.flowControlLock.active = x.cp.flowControlLock.active - (docsOf [m]).length := by
  have hpeek : x.peek 0 = l[t]? := by simp [Exec.peek, Exec.op?, hops, Stream.peek]
  rcases hl : l[t]? with _ | m
  · simp [Exec.consume, hpeek, hl] at hm
  refine ⟨m, rfl, by simp [Exec.consume_ops hm, hops, Stream.pop], ?_⟩
  rcases m with d | e <;> simp only [Exec.consume, hpeek, hl, Option.some.injEq] at hm <;> subst hm <;>
    simp [Exec.releasePermit, Exec.popInput]

/-- **A plan's only operation produces `owed`**, its states being those of `R` and `moves`
bounding the moves it still needs: each step stays in `R`, only appends to the output, takes a
permit for each document it sends, lowers `moves` by more than it sends and, unless it failed,
keeps the output a prefix of `owed`; an output with no failure is a prefix of `owed`; and, a
permit being free, an operation that has not sent all of `owed` can take a step that does not
fail. -/
structure SoleProducer (env : Env) (R : Actor → List Msg → Prop) (owed : List Msg)
    (moves : Actor → Nat) : Prop where
  step : ∀ {x y : Exec} {a : Actor} {l : List Msg} {t : Nat} {ev : Event},
    x.cp.ops = [⟨a, ⟨l, t⟩⟩] → R a l → x.step env 0 ev = some y →
    ∃ a' ms, y.cp.ops = [⟨a', ⟨l ++ ms, t⟩⟩] ∧ R a' (l ++ ms) ∧
      y.cp.flowControlLock.active = x.cp.flowControlLock.active + (docsOf ms).length ∧
      moves a' + ms.length < moves a ∧ (ev ≠ .fail → l ++ ms <+: owed)
  isPrefix : ∀ {a : Actor} {l : List Msg}, R a l → l.any Msg.isFailure = false → l <+: owed
  live : ∀ {x : Exec} {a : Actor} {l : List Msg} {t : Nat}, x.cp.ops = [⟨a, ⟨l, t⟩⟩] → R a l →
    l <+: owed → x.canTake = true → l = owed ∨ ∃ ev, ev ≠ .fail ∧ ∃ y, x.step env 0 ev = some y

/-- **The states of a plan's only operation**: in `R`, the lock having had `active0` permits
taken, one more for each document sent and one fewer for each the consumer took. -/
def SoleInv (R : Actor → List Msg → Prop) (active0 : Int) (x : Exec) : Prop :=
  ∃ a l t, x.cp.ops = [⟨a, ⟨l, t⟩⟩] ∧ t ≤ l.length ∧ R a l ∧
    x.cp.flowControlLock.active + (docsOf (l.take t)).length = active0 + (docsOf l).length

/-- **Every move keeps a plan's only operation in its states.** -/
theorem SoleInv.move (hp : SoleProducer env R owed moves) (h : SoleInv R active0 x) {c : Choice}
    (hm : x.move env 0 c = some y) : SoleInv R active0 y := by
  obtain ⟨a, l, t, hops, ht, hrun, hlock⟩ := h
  cases c with
  | consume =>
    obtain ⟨m, hl, hops', hact⟩ := consume_only hops hm
    refine ⟨a, l, t + 1, hops', (List.getElem?_eq_some_iff.1 hl).1, hrun, ?_⟩
    rw [take_succ_of_getElem? hl, docsOf_append, List.length_append, hact]
    omega
  | step i ev =>
    rcases i with _ | i
    · obtain ⟨a', ms, hy, hrun', hact, -⟩ := hp.step hops hrun hm
      refine ⟨a', _, t, hy, by rw [List.length_append]; omega, hrun', ?_⟩
      rw [List.take_append_of_le_length ht, hact, docsOf_append, List.length_append]
      push_cast
      omega
    · simp [Exec.move, Exec.step, Exec.op?, hops] at hm

/-- **A plan's only operation that can still send all it owes**: in its states, on a lock back
to no permit taken once the consumer has taken everything, its output a prefix of `owed`; `n`
counts the moves it needs at most. -/
def SoleProgress (R : Actor → List Msg → Prop) (owed : List Msg) (moves : Actor → Nat) (n : Nat)
    (x : Exec) : Prop :=
  ∃ a l t, x.cp.ops = [⟨a, ⟨l, t⟩⟩] ∧ t ≤ l.length ∧ R a l ∧
    x.cp.flowControlLock.active + (docsOf (l.take t)).length = (docsOf l).length ∧
    l <+: owed ∧ n = moves a + (l.length - t)

/-- **One move towards all a plan's only operation owes**: it has sent it, or the consumer
takes a message, or, everything taken and so no permit held, the operation takes a step. -/
theorem SoleProgress.step (hp : SoleProducer env R owed moves) {n : Nat}
    (h : SoleProgress R owed moves n x) :
    x.sentAt 0 = some owed ∨
      ∃ m y, (∃ c, x.move env 0 c = some y) ∧ SoleProgress R owed moves m y ∧ m < n := by
  obtain ⟨a, l, t, hops, ht, hrun, hlock, hpre, rfl⟩ := h
  by_cases hc : t < l.length
  · -- the consumer takes the next message
    obtain ⟨y, hy⟩ := Exec.consume_of_peek
      (by simp [Exec.peek, Exec.op?, hops, Stream.peek, hc] : x.peek 0 = some (l.get ⟨t, hc⟩))
    obtain ⟨m, hm, hops', hact⟩ := consume_only hops hy
    refine .inr ⟨_, y, ⟨.consume, hy⟩, ⟨a, l, t + 1, hops', hc, hrun, ?_, hpre, rfl⟩, by omega⟩
    rw [take_succ_of_getElem? hm, docsOf_append, List.length_append, hact]
    omega
  -- everything sent has been taken, so no permit is held
  have hfree : x.canTake = true := by
    rw [List.take_of_length_le (by omega)] at hlock
    have hact : x.cp.flowControlLock.active = 0 := by omega
    simp [Exec.canTake, FlowControlLock.canTake, hact]
  rcases hp.live hops hrun hpre hfree with rfl | ⟨ev, hev, y, hy⟩
  · exact .inl (by simp [Exec.sentAt, Exec.op?, hops])
  obtain ⟨a', ms, hops', hrun', hact, hlt, howed⟩ := hp.step hops hrun hy
  refine .inr ⟨_, y, ⟨.step 0 ev, hy⟩,
    ⟨a', _, t, hops', by rw [List.length_append]; omega, hrun', ?_, howed hev, rfl⟩, ?_⟩
  · rw [List.take_append_of_le_length ht, hact, docsOf_append, List.length_append]
    push_cast
    omega
  · simp only [List.length_append]
    omega

/-- **From every state of a plan's only operation in which nothing has failed, on a lock that
had no permit taken, a run sends all it owes.** -/
theorem SoleInv.produces (hp : SoleProducer env R owed moves) (h : SoleInv R 0 x)
    (hf : x.failed = false) : ∃ y, Exec.Reaches env 0 x y ∧ y.sentAt 0 = some owed := by
  obtain ⟨a, l, t, hops, ht, hrun, hlock⟩ := h
  simp only [Exec.failed, hops, List.any_cons, List.any_nil, Bool.or_false] at hf
  exact Exec.reaches_of_measure (SoleProgress R owed moves) _ (fun _ _ h => h.step hp) _ x
    ⟨a, l, t, hops, ht, hrun, by omega, hp.isPrefix hrun hf, rfl⟩

end Sole

end DocLayer
