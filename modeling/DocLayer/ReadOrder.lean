import DocLayer.ScanOrder

/-! # Only the consumer takes from a plan's output

`execute` builds an actor's inputs by executing its subplans first, so `ops` is a topological
order (the comment on `PlanCheckpoint` relies on it to cancel in that order): every operation
reads only operations registered before it, and the plan's output is the last one. A step
takes only from the streams its actor reads, and an actor only ever moves to one reading the
same streams, or returns. So over every run no operation takes from the plan's output: the
consumer alone does.

* **`Actor.inputs`** — the streams an actor reads.
* **`Exec.ReadsOnly`** — a move of an operation that takes only from its actor's inputs and
  leaves it reading among them; `step_readsOnly` shows every step is one.
* **`Exec.OutputLast`** — every operation reads earlier ones and none comes after the output;
  `Reachable.outputLast` carries it over every run.
* **`outputUnread`** — no step of a run of a plan on a fresh checkpoint takes from its output. -/

namespace DocLayer

/-- **The streams an actor reads**: its input, or both of `doUnion`'s. -/
def Actor.inputs : Actor → List Nat
  | .headQueue _ st => [st.input]
  | .buildIndex st => [st.input]
  | .update st => [st.input]
  | .union st => [st.a, st.b]
  | .skip st => [st.input]
  | .projectAndUpdate st => [st.input]
  | _ => []

/-- **A move of operation `i`, whose actor was `a`, that reads only `a`'s inputs**: it takes
from no other stream, and leaves operation `i` reading among them. -/
structure Exec.ReadsOnly (a : Actor) (i : Nat) (x y : Exec) : Prop where
  takenAt : ∀ k, k ∉ a.inputs → y.takenAt k = x.takenAt k
  actorAt : ∀ a', y.actorAt i = some a' → ∀ j ∈ a'.inputs, j ∈ a.inputs

namespace Exec.ReadsOnly

variable {a : Actor} {i : Nat} {x y : Exec}

theorem refl (ha : x.actorAt i = some a) : ReadsOnly a i x x :=
  ⟨fun _ _ => rfl, fun _ h _ hj => by rwa [Option.some.inj (ha.symm.trans h)]⟩

theorem setActor (h : ReadsOnly a i x y) (a' : Actor) (ha' : ∀ j ∈ a'.inputs, j ∈ a.inputs) :
    ReadsOnly a i x (y.setActor i a') := by
  refine ⟨fun k hk => by simpa using h.takenAt k hk, fun a'' h' => ?_⟩
  simp only [Exec.setActor_actorAt, if_true, Option.map_eq_some'] at h'
  obtain ⟨_, -, rfl⟩ := h'
  exact ha'

theorem send (h : ReadsOnly a i x y) (m : Msg) : ReadsOnly a i x (y.send i m) :=
  ⟨fun k hk => by simpa using h.takenAt k hk, fun a' h' => h.actorAt a' (by simpa using h')⟩

theorem popInput (h : ReadsOnly a i x y) {j : Nat} (hj : j ∈ a.inputs) : ReadsOnly a i x (y.popInput j) := by
  refine ⟨fun k hk => ?_, fun a' h' => h.actorAt a' (by simpa using h')⟩
  have hkj : k ≠ j := fun e => hk (e ▸ hj)
  simpa [hkj] using h.takenAt k hk

/-- A move that leaves every operation as it is. -/
theorem of_ops_eq (h : ReadsOnly a i x y) {z : Exec} (hz : z.cp.ops = y.cp.ops) : ReadsOnly a i x z := by
  have hop : ∀ k, z.op? k = y.op? k := fun k => by simp only [Exec.op?, hz]
  exact ⟨fun k hk => by simpa only [Exec.takenAt, hop] using h.takenAt k hk,
    fun a' h' => h.actorAt a' (by simpa only [Exec.actorAt, hop] using h')⟩

theorem takePermit (h : ReadsOnly a i x y) : ReadsOnly a i x y.takePermit := h.of_ops_eq rfl
theorem releasePermit (h : ReadsOnly a i x y) : ReadsOnly a i x y.releasePermit := h.of_ops_eq rfl
theorem write (h : ReadsOnly a i x y) (e : Effect) : ReadsOnly a i x (y.write e) := h.of_ops_eq rfl
theorem insertDoc (h : ReadsOnly a i x y) : ReadsOnly a i x y.insertDoc := h.of_ops_eq rfl
theorem setCounter (h : ReadsOnly a i x y) (slot : Nat) (v : Int) : ReadsOnly a i x (y.setCounter slot v) :=
  h.of_ops_eq rfl

theorem finish (h : ReadsOnly a i x y) (e : ErrorCode) : ReadsOnly a i x (y.finish i e) :=
  (h.send _).setActor _ fun _ hj => by simp [Actor.inputs] at hj

theorem onReceive (h : ReadsOnly a i x y) (kind : QueueKind) (d : ScanReturned) :
    ReadsOnly a i x (kind.onReceive d y) := by
  cases kind <;> first | exact h | exact h.write _

end Exec.ReadsOnly

open Exec.ReadsOnly

/-! ## Every step reads only its actor's inputs -/

section Tails

variable {a : Actor} {i : Nat} {x y : Exec}

theorem updateAfterDrain_readsOnly (h : Exec.ReadsOnly a i x y) (st : Update) (hs : st.input ∈ a.inputs) :
    Exec.ReadsOnly a i x (updateAfterDrain y i st) := by
  unfold updateAfterDrain
  split
  · exact h.setActor _ (by simpa [Actor.inputs] using hs)
  · exact h.finish _

theorem unionEndOfStream_readsOnly (h : Exec.ReadsOnly a i x y) {b : Nat} (bOpen : Bool)
    {reopen : Bool → Bool → Union} (hb : b ∈ a.inputs)
    (hre : ∀ j ∈ (Actor.union (reopen false true)).inputs, j ∈ a.inputs) :
    Exec.ReadsOnly a i x (unionEndOfStream y i b bOpen reopen) := by
  unfold unionEndOfStream
  split
  · split
    · exact (h.popInput hb).finish _
    · exact h.setActor _ (by simp [Actor.inputs])
  · exact h.setActor _ hre
  · exact h.finish _

theorem pauOutput_readsOnly (h : Exec.ReadsOnly a i x y) (st : ProjectAndUpdate) :
    Exec.ReadsOnly a i x (pauOutput y i st) := by
  unfold pauOutput
  split
  · exact (h.send _).finish _
  · exact h.finish _

theorem pauProjectNew_readsOnly (h : Exec.ReadsOnly a i x y) (st : ProjectAndUpdate) (hs : st.input ∈ a.inputs) :
    Exec.ReadsOnly a i x (pauProjectNew y i st) := by
  unfold pauProjectNew
  split
  · exact h.setActor _ (by simpa [Actor.inputs] using hs)
  · exact pauOutput_readsOnly h st

theorem pauCommit_readsOnly (h : Exec.ReadsOnly a i x y) (st : ProjectAndUpdate) (hs : st.input ∈ a.inputs) :
    Exec.ReadsOnly a i x (pauCommit y i st) := by
  unfold pauCommit
  split
  · exact (h.write _).setActor _ (by simpa [Actor.inputs] using hs)
  · exact pauProjectNew_readsOnly h st hs

theorem pauMutate_readsOnly (h : Exec.ReadsOnly a i x y) (st : ProjectAndUpdate) (hs : st.input ∈ a.inputs) :
    Exec.ReadsOnly a i x (pauMutate y i st) := by
  unfold pauMutate
  split
  · exact (h.write _).setActor _ (by simpa [Actor.inputs] using hs)
  · split
    · exact h.setActor _ (by simpa [Actor.inputs] using hs)
    · exact pauCommit_readsOnly h st hs

theorem pauProjectOld_readsOnly (h : Exec.ReadsOnly a i x y) (st : ProjectAndUpdate) (hs : st.input ∈ a.inputs) :
    Exec.ReadsOnly a i x (pauProjectOld y i st) := by
  unfold pauProjectOld
  split
  · exact h.setActor _ (by simpa [Actor.inputs] using hs)
  · exact pauMutate_readsOnly h st hs

theorem insertLoop_readsOnly (h : Exec.ReadsOnly a i x y) (st : InsertDocs) :
    Exec.ReadsOnly a i x (insertLoop y i st) := by
  unfold insertLoop
  split
  · exact h.finish _
  · exact h.setActor _ (by simp [Actor.inputs])

end Tails

variable {env : Env}

/-- **Every step of operation `i` takes only from its actor's inputs**, and leaves it reading
among them. Each actor's result is a composition of the primitive moves, closed by the lemmas
above. -/
theorem step_readsOnly {x y : Exec} {i : Nat} {ev : Event} {a : Actor} (ha : x.actorAt i = some a)
    (h : x.step env i ev = some y) : Exec.ReadsOnly a i x y := by
  have h0 := Exec.ReadsOnly.refl ha
  simp only [Exec.actorAt, Option.map_eq_some'] at ha
  obtain ⟨o, ho, rfl⟩ := ha
  simp only [Exec.step, headQueueActor_eq, ho] at h
  revert h0 h
  generalize o.actor = b
  intro h0 h
  cases b <;> simp only [doPKScan, toDocInfo, doSinglePKLookup, headQueueStep, scanAndBuildIndex, doUpdate,
    doUnion, doSkip, projectAndUpdate, doIndexInsert, doInsert, reduceCtorEq] at h
  all_goals repeat' split at h
  all_goals cases h
  all_goals repeat' first
    | with_reducible exact h0
    | with_reducible apply Exec.ReadsOnly.finish
    | with_reducible apply updateAfterDrain_readsOnly
    | with_reducible apply unionEndOfStream_readsOnly
    | with_reducible apply pauOutput_readsOnly
    | with_reducible apply pauProjectNew_readsOnly
    | with_reducible apply pauCommit_readsOnly
    | with_reducible apply pauMutate_readsOnly
    | with_reducible apply pauProjectOld_readsOnly
    | with_reducible apply insertLoop_readsOnly
    | with_reducible apply Exec.ReadsOnly.setActor
    | with_reducible apply Exec.ReadsOnly.send
    | with_reducible apply Exec.ReadsOnly.popInput
    | with_reducible apply Exec.ReadsOnly.takePermit
    | with_reducible apply Exec.ReadsOnly.releasePermit
    | with_reducible apply Exec.ReadsOnly.write
    | with_reducible apply Exec.ReadsOnly.insertDoc
    | with_reducible apply Exec.ReadsOnly.setCounter
    | with_reducible apply Exec.ReadsOnly.onReceive
  all_goals simp [Actor.inputs]

/-! ## What `execute` registers -/

/-- **An operation as `execute` registers it**: nothing taken from its output, and either
nothing sent yet, or returned after `end_of_stream` (a plan that can emit nothing). -/
def Op.Fresh (o : Op) : Prop :=
  o.output.taken = 0 ∧
    (o.output.sent = [] ∨ o.actor = .finished ∧ o.output.sent = [.error .endOfStream])

/-- **`cp'` has `cp`'s operations, then fresh ones.** -/
def PlanCheckpoint.AppendsFresh (cp cp' : PlanCheckpoint) : Prop :=
  ∃ new : List Op, cp'.ops = cp.ops ++ new ∧ ∀ o ∈ new, o.Fresh

namespace PlanCheckpoint.AppendsFresh

theorem refl (cp : PlanCheckpoint) : cp.AppendsFresh cp := ⟨[], by simp, by simp⟩

theorem trans {a b c : PlanCheckpoint} (h : a.AppendsFresh b) (h' : b.AppendsFresh c) : a.AppendsFresh c := by
  obtain ⟨n, hn, hz⟩ := h
  obtain ⟨n', hn', hz'⟩ := h'
  exact ⟨n ++ n', by rw [hn', hn, List.append_assoc], fun o ho => (List.mem_append.1 ho).elim (hz o) (hz' o)⟩

theorem of_ops_eq {cp cp' : PlanCheckpoint} (h : cp'.ops = cp.ops) : cp.AppendsFresh cp' :=
  ⟨[], by simp [h], by simp⟩

theorem addScan (cp : PlanCheckpoint) : cp.AppendsFresh cp.addScan.1 := of_ops_eq rfl

theorem register_eq {cp cp' : PlanCheckpoint} {a : Actor} {r : Nat} (h : cp.register a = (cp', r)) :
    cp.AppendsFresh cp' := by
  rw [Prod.ext_iff] at h
  obtain ⟨rfl, -⟩ := h
  exact ⟨[⟨a, .empty⟩], rfl, by simp [Op.Fresh]⟩

theorem registerEnded_eq {cp cp' : PlanCheckpoint} {r : Nat} (h : cp.registerEnded = (cp', r)) :
    cp.AppendsFresh cp' := by
  rw [Prod.ext_iff] at h
  obtain ⟨rfl, -⟩ := h
  exact ⟨[_], rfl, by simp [Op.Fresh, Stream.send]⟩

end PlanCheckpoint.AppendsFresh

open PlanCheckpoint.AppendsFresh in
/-- **`execute` registers operations with untaken outputs.** -/
theorem Plan.execute_appendsFresh {env : Env} : ∀ (p : Plan) {cp cp' : PlanCheckpoint} {r : Nat},
    p.execute env cp = some (cp', r) → cp.AppendsFresh cp'
  | .tableScan, cp, _, _, h => by
    simp only [Plan.execute, Option.pure_def, Option.some.injEq] at h
    exact (addScan cp).trans (register_eq h)
  | .primaryKeyLookup b e, cp, _, _, h => by
    have range : ∀ {cp' r} {f : Key × Key → Actor}, (∃ a, scanRange b e (cp.addScan.1.getBounds
        cp.addScan.2) = some a ∧ cp.addScan.1.register (f a) = (cp', r)) → cp.AppendsFresh cp' :=
      fun ⟨_, _, h⟩ => (addScan cp).trans (register_eq h)
    cases b <;> cases e <;> simp only [Plan.execute, Option.bind_eq_bind, Option.bind_eq_some,
      Option.pure_def, Option.some.injEq] at h
    any_goals exact range h
    split at h
    · split at h <;> simp only [Option.some.injEq] at h
      · exact (addScan cp).trans (register_eq h)
      · exact (addScan cp).trans (registerEnded_eq h)
    · simp only [Option.bind_eq_some, Option.some.injEq] at h
      exact range h
  | .indexScan index b e, cp, _, _, h => by
    simp only [Plan.execute, Option.bind_eq_bind, Option.bind_eq_some, Option.pure_def,
      Option.some.injEq] at h
    obtain ⟨_, -, h⟩ := h
    split at h <;> simp only [Option.some.injEq] at h
    · exact (addScan cp).trans (register_eq h)
    · exact ((addScan cp).trans (register_eq rfl)).trans (register_eq h)
  | .filter src _, cp, _, _, h | .projection src, cp, _, _, h | .flushChanges src, cp, _, _, h
  | .projectAndUpdate src _ _, cp, _, _, h | .buildIndex src, cp, _, _, h => by
    simp only [Plan.execute, Option.bind_eq_bind, Option.bind_eq_some, Option.pure_def,
      Option.some.injEq] at h
    obtain ⟨_, h1, h⟩ := h
    exact (Plan.execute_appendsFresh src h1).trans (register_eq h)
  | .skip src _, cp, _, _, h | .update src _ _, cp, _, _, h => by
    simp only [Plan.execute, Option.bind_eq_bind, Option.bind_eq_some, Option.pure_def,
      Option.some.injEq] at h
    obtain ⟨_, h1, h⟩ := h
    exact ((Plan.execute_appendsFresh src h1).trans (of_ops_eq (by simp))).trans (register_eq h)
  | .union p1 p2, cp, _, _, h => by
    simp only [Plan.execute, Option.bind_eq_bind, Option.bind_eq_some, Option.pure_def,
      Option.some.injEq] at h
    obtain ⟨_, h1, _, h2, h⟩ := h
    exact ((Plan.execute_appendsFresh p1 h1).trans (Plan.execute_appendsFresh p2 h2)).trans (register_eq h)
  | .indexInsert _ _, cp, _, _, h | .insert _, cp, _, _, h => by
    simp only [Plan.execute, Option.pure_def, Option.some.injEq] at h
    exact register_eq h
  | .empty, cp, _, _, h => by
    simp only [Plan.execute, Option.pure_def, Option.some.injEq] at h
    exact registerEnded_eq h

/-- **Right after `execute` on a fresh checkpoint, nothing has been taken from the plan's
output.** -/
theorem Exec.start_takenAt {env : Env} {plan : Plan} {cp : PlanCheckpoint} {x : Exec} {root : Nat}
    (hcp : cp.ops = []) (hs : Exec.start env plan cp = some (x, root)) : x.takenAt root = some 0 := by
  obtain ⟨⟨cp', r⟩, hexec, he⟩ := Option.map_eq_some'.1 hs
  simp only [Prod.mk.injEq] at he
  obtain ⟨rfl, rfl⟩ := he
  obtain ⟨new, hnew, hz⟩ := Plan.execute_appendsFresh plan hexec
  have hlen := (Plan.execute_shape plan hexec).2
  rw [hcp, List.nil_append] at hnew
  obtain ⟨o, ho⟩ : ∃ o, cp'.ops[r]? = some o := ⟨_, List.getElem?_eq_getElem (by omega)⟩
  simp [Exec.takenAt, Exec.op?, ho, (hz o (hnew ▸ List.mem_iff_getElem?.2 ⟨r, ho⟩)).1]

/-! ## Over every run -/

/-- **Every operation reads only earlier operations, and none comes after the output
`root`.** -/
def Exec.OutputLast (x : Exec) (root : Nat) : Prop :=
  ∀ k a, x.actorAt k = some a → k ≤ root ∧ ∀ j ∈ a.inputs, j < k

/-- **A freshly registered actor reads earlier operations.** -/
theorem StartLink.inputs_lt {B : Nat → Key × Key} {scope : Nat → Nat × Nat} {k : Nat} {a : Actor}
    (h : StartLink B scope k a) : ∀ j ∈ a.inputs, j < k := by
  intro j hj
  cases a <;> simp only [Actor.inputs, List.mem_cons, List.mem_singleton, List.not_mem_nil, or_false] at hj
  case union => rcases hj with rfl | rfl; exacts [h.1, h.2.1]
  all_goals subst hj; exact (h _ rfl).1

theorem Exec.actorAt_of_step {x y : Exec} {i : Nat} {ev : Event} (h : x.step env i ev = some y) :
    ∃ a, x.actorAt i = some a := by
  cases ho : x.op? i with
  | none => simp [Exec.step, ho] at h
  | some o => exact ⟨o.actor, by simp [Exec.actorAt, ho]⟩

variable {root : Nat} {x y : Exec}

theorem Exec.OutputLast.step (h : x.OutputLast root) {i : Nat} {ev : Event} (hy : x.step env i ev = some y) :
    y.OutputLast root := by
  obtain ⟨a, ha⟩ := Exec.actorAt_of_step hy
  intro k a' hk
  by_cases hki : k = i
  · subst hki
    obtain ⟨hle, hin⟩ := h k a ha
    exact ⟨hle, fun j hj => hin j ((step_readsOnly ha hy).actorAt a' hk j hj)⟩
  · exact h k a' (by rwa [← (step_frame hy).actorAt k hki])

theorem Exec.OutputLast.consume (h : x.OutputLast root) (hc : x.consume root = some y) : y.OutputLast root :=
  fun k a hk => h k a (by rwa [← (consume_frame hc (k + 1)).actorAt k (by omega)])

/-- **Every reachable state of a plan executed on a fresh checkpoint** reads in the order of
registration, its output last. -/
theorem Reachable.outputLast {plan : Plan} {cp : PlanCheckpoint} (hcp : cp.ops = [])
    (hbnd : ∀ s, (cp.getBounds s).2 ≤ allKeysEnd) (hx : Reachable env plan cp x root) : x.OutputLast root := by
  induction hx with
  | start hs =>
    obtain ⟨⟨cp', r⟩, hexec, he⟩ := Option.map_eq_some'.1 hs
    simp only [Prod.mk.injEq] at he
    obtain ⟨rfl, rfl⟩ := he
    have hinv : StartInv cp.getBounds (fun _ => (0, 0)) cp.ops := fun k o h => by simp [hcp] at h
    obtain ⟨scope', hstart, -⟩ := execute_startInv hbnd plan (fun _ => rfl) hinv hexec
    have hlen := (Plan.execute_shape plan hexec).2
    intro k a hk
    simp only [Exec.actorAt, Exec.op?, Option.map_eq_some'] at hk
    obtain ⟨o, ho, rfl⟩ := hk
    have hlt := (List.getElem?_eq_some_iff.1 ho).1
    exact ⟨by omega, (hstart k o ho).2.2.inputs_lt⟩
  | move c _ hm ih =>
    cases c with
    | step i ev => exact ih.step hm
    | consume => exact ih.consume hm

/-- **No operation of a plan's execution takes from the plan's output**: from every reachable
state, a step leaves the output's taken count as it was, so only the consumer takes. -/
def OutputUnread (env : Env) (plan : Plan) (cp : PlanCheckpoint) : Prop :=
  ∀ {x y : Exec} {root i : Nat} {ev : Event}, Reachable env plan cp x root →
    x.step env i ev = some y → y.takenAt root = x.takenAt root

/-- **Only the consumer takes from the output of a plan executed on a fresh checkpoint.** -/
theorem outputUnread {plan : Plan} {cp : PlanCheckpoint} (hcp : cp.ops = [])
    (hbnd : ∀ s, (cp.getBounds s).2 ≤ allKeysEnd) : OutputUnread env plan cp := by
  intro x y root i ev hx hy
  obtain ⟨a, ha⟩ := Exec.actorAt_of_step hy
  obtain ⟨hle, hin⟩ := hx.outputLast hcp hbnd i a ha
  exact (step_readsOnly ha hy).takenAt root fun hr => absurd (hin root hr) (by omega)

theorem outputUnread_new (plan : Plan) (permits : Nat) :
    OutputUnread env plan (PlanCheckpoint.new permits) :=
  outputUnread rfl fun _ => by simp [PlanCheckpoint.getBounds, PlanCheckpoint.new]

end DocLayer
