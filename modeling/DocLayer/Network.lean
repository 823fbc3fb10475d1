import DocLayer.ReadOrder
import DocLayer.Stages
import DocLayer.Union
import DocLayer.PKScan

/-! # A streaming plan as a network of operations

`execute` registers a plan's operations in the order of the plan tree: each reads only
operations registered before it, and every stream but the plan's output has one reader, the
operation of the parent node. For the streaming operators (the primary-key scans and lookups,
`doFilter` and `doUnion`), what an operation has sent depends only on what it has taken of its
inputs, whatever the other operations did in between. This module gives each operation a
*role*, shows that every move of a run keeps each operation where its role says, and composes
what each operation owes along the plan tree.

* **`Exec.Took`** — the first messages of a stream that its reader has taken.
* **`LookupRun`**, **`Stranded`** — where `doSinglePKLookup` can be; a union whose catch
  block's `ASSERT` threw. With `PKScanRun`, `QueueRun` and `UnionRun` they say where each
  streaming actor can be.
* **`Role`**, **`RoleRel`** — what an operation is, and where it can be given what it has
  taken of its inputs.
* **`Produces`** — an operation has sent documents forming a sub-multiset of what it owes, and
  all of it once it has ended with `end_of_stream`; one lemma per role composes it from the
  inputs' (`RoleRel.produces_filter`, `RoleRel.produces_union`).
* **`Net`** — every operation of an execution plays its role, the roles being `Wired` (each
  stream read by one later operation); `Net.move` keeps it over every move of a run. -/

namespace DocLayer

variable {env : Env} {x y : Exec}

/-! ## What a reader has taken -/

/-- The next message of stream `j` is the one after those taken. -/
theorem Exec.peek_eq {j t : Nat} {l : List Msg} (hl : x.sentAt j = some l) (ht : x.takenAt j = some t) :
    x.peek j = l[t]? := by
  simp only [Exec.sentAt, Exec.takenAt, Option.map_eq_some'] at hl ht
  obtain ⟨o, ho, rfl⟩ := hl
  obtain ⟨o', ho', rfl⟩ := ht
  cases ho.symm.trans ho'
  simp [Exec.peek, ho, Stream.peek]

/-- **The reader of stream `j` has taken `M`**, the first messages sent on it. -/
def Exec.Took (x : Exec) (j : Nat) (M : List Msg) : Prop :=
  ∃ l t, x.sentAt j = some l ∧ x.takenAt j = some t ∧ t ≤ l.length ∧ M = l.take t

namespace Exec.Took

variable {i j : Nat} {M : List Msg}

theorem isPrefix (h : x.Took j M) : ∃ l, x.sentAt j = some l ∧ M <+: l := by
  obtain ⟨l, t, hl, -, -, rfl⟩ := h
  exact ⟨l, hl, List.take_prefix t l⟩

/-- **What was taken stays taken** while the stream only grows and its reader takes nothing. -/
theorem of_frame (h : x.Took j M) (hf : Exec.Frame i x y) (ht : y.takenAt j = x.takenAt j) :
    y.Took j M := by
  obtain ⟨l, t, hl, ht0, hle, rfl⟩ := h
  obtain ⟨l', hl', r, rfl⟩ := hf.sent_grows j l hl
  exact ⟨l ++ r, t, hl', ht.trans ht0, hle.trans (by simp), (List.take_append_of_le_length hle).symm⟩

/-- **Taking the next message** `m` of stream `j` adds it to what was taken. -/
theorem pop (h : x.Took j M) {m : Msg} (hp : x.peek j = some m) : (x.popInput j).Took j (M ++ [m]) := by
  obtain ⟨l, t, hl, ht, -, rfl⟩ := h
  have hm : l[t]? = some m := (Exec.peek_eq hl ht).symm.trans hp
  exact ⟨l, t + 1, by simpa using hl, by simp [ht], (List.getElem?_eq_some_iff.1 hm).1,
    (take_succ_of_getElem? hm).symm⟩

theorem popInput_ne (h : x.Took j M) {k : Nat} (hk : j ≠ k) : (x.popInput k).Took j M :=
  h.of_frame ((Exec.Frame.refl 0 x).popInput k) (by simp [hk])

theorem send (h : x.Took j M) (i : Nat) (m : Msg) : (x.send i m).Took j M :=
  h.of_frame ((Exec.Frame.refl i x).send m) (by simp)

theorem setActor (h : x.Took j M) (i : Nat) (a : Actor) : (x.setActor i a).Took j M :=
  h.of_frame ((Exec.Frame.refl i x).setActor a) (by simp)

end Exec.Took

/-! ## Where each streaming actor can be -/

/-- **Where `doSinglePKLookup` of scan `s`, looking up `k`, can be**, with what it has sent:
waiting on its `get`, or for a permit once the document is found; returned after sending the
document then `end_of_stream`, `end_of_stream` alone when there is no document, or the error
its `get` failed with. -/
inductive LookupRun (env : Env) (s : Nat) (k : Key) : Actor → List Msg → Prop
  | get : LookupRun env s k (.singlePKLookup ⟨s, k, .get⟩) []
  | permit : k ∈ env.table → LookupRun env s k (.singlePKLookup ⟨s, k, .permit⟩) []
  | found : k ∈ env.table →
      LookupRun env s k .finished [.doc ⟨.stored k, s, k⟩, .error .endOfStream]
  | absent : k ∉ env.table → LookupRun env s k .finished [.error .endOfStream]
  | failed : LookupRun env s k .finished [.error .retryable]

/-- **A union whose catch block's `ASSERT` threw**: it took one side's `end_of_stream` while
the other side, still open, had another error waiting, and returned without ending its output.
Flow's order never leaves a union here (`union_merges_inputs`); a run that takes the inputs'
messages in another order can. -/
inductive Stranded : List Msg → List Msg → List Msg → Prop
  | a {da db out : List ScanReturned} : Interleaving da db out →
      Stranded (da.map .doc ++ [.error .endOfStream]) (db.map .doc) (out.map .doc)
  | b {da db out : List ScanReturned} : Interleaving da db out →
      Stranded (da.map .doc) (db.map .doc ++ [.error .endOfStream]) (out.map .doc)

/-! ## Roles -/

/-- **What an operation of a streaming plan is.** -/
inductive Role
  /-- `doPKScan` over the keys `ks` its range read returns. -/
  | scan (ks : List Key)
  /-- `doSinglePKLookup` looking up `k`. -/
  | lookup (k : Key)
  /-- An operation that ended its output with `end_of_stream` inside `execute`. -/
  | ended
  /-- `doFilter` with predicate `f`, reading operation `j`. -/
  | filter (f : Predicate) (j : Nat)
  /-- `doUnion` reading operations `a` and `b`. -/
  | union (a b : Nat)

/-- The operations a role reads. -/
def Role.inputs : Role → List Nat
  | .filter _ j => [j]
  | .union a b => [a, b]
  | _ => []

/-- **Operation `k` plays role `r`** in `x`: its actor and what it has sent are where the
role's relation says, given what it has taken of its inputs. -/
def RoleRel (env : Env) (x : Exec) (k : Nat) : Role → Prop
  | .scan ks => ∃ s a l, x.actorAt k = some a ∧ x.sentAt k = some l ∧ PKScanRun env s ks a l
  | .lookup key => ∃ s a l, x.actorAt k = some a ∧ x.sentAt k = some l ∧ LookupRun env s key a l
  | .ended => x.actorAt k = some .finished ∧ x.sentAt k = some [.error .endOfStream]
  | .filter f j => ∃ M ds q l, x.Took j M ∧
      x.actorAt k = some (q.elim .finished fun q => .headQueue (.filter f) ⟨j, q.1, q.2⟩) ∧
      x.sentAt k = some l ∧ QueueRun ((QueueKind.filter f).passes env) M ds q l
  | .union a b => ∃ Ma Mb act l, x.Took a Ma ∧ x.Took b Mb ∧ x.actorAt k = some act ∧
      x.sentAt k = some l ∧ (UnionRun a b Ma Mb act l ∨ act = .finished ∧ Stranded Ma Mb l)

/-- **An operation reads only what its role reads.** -/
theorem RoleRel.inputs_subset {k : Nat} {r : Role} {a : Actor} (h : RoleRel env x k r)
    (ha : x.actorAt k = some a) : ∀ j ∈ a.inputs, j ∈ r.inputs := by
  cases r with
  | scan | lookup =>
    obtain ⟨s, a', l, ha', -, hrun⟩ := h
    cases ha.symm.trans ha'
    cases hrun <;> simp [Actor.inputs]
  | ended => cases ha.symm.trans h.1; simp [Actor.inputs]
  | filter f j =>
    obtain ⟨M, ds, q, l, -, ha', -⟩ := h
    cases ha.symm.trans ha'
    rcases q with _ | q <;> simp [Actor.inputs, Role.inputs]
  | union a b =>
    obtain ⟨Ma, Mb, act, l, -, -, ha', -, hrun⟩ := h
    cases ha.symm.trans ha'
    rcases hrun with hrun | ⟨rfl, -⟩
    · cases hrun <;> simp [Actor.inputs, Role.inputs]
    · simp [Actor.inputs]

/-! ## What an operation owes -/

/-- **Operation `k` owes the documents `D`**, as a multiset: it has sent documents, then at most
one error; its documents form a sub-multiset of `D`, and all of `D` once the error is
`end_of_stream`. -/
def Produces (x : Exec) (k : Nat) (D : List DocRef) : Prop :=
  ∃ (ds : List ScanReturned) (tail : List Msg), x.sentAt k = some (ds.map .doc ++ tail) ∧
    (tail = [] ∨ ∃ e, tail = [.error e]) ∧
    (ds.map ScanReturned.doc).Subperm D ∧ (tail = [.error .endOfStream] → (ds.map ScanReturned.doc).Perm D)

theorem Produces.of_docs {k : Nat} {D : List DocRef} (ds : List ScanReturned)
    (hl : x.sentAt k = some (ds.map .doc)) (hD : (ds.map ScanReturned.doc).Subperm D) : Produces x k D :=
  ⟨ds, [], by simpa using hl, .inl rfl, hD, nofun⟩

theorem Produces.of_error {k : Nat} {D : List DocRef} (ds : List ScanReturned) (e : ErrorCode)
    (hl : x.sentAt k = some (ds.map .doc ++ [.error e])) (hD : (ds.map ScanReturned.doc).Subperm D)
    (hend : e = .endOfStream → (ds.map ScanReturned.doc).Perm D) : Produces x k D :=
  ⟨ds, _, hl, .inr ⟨e, rfl⟩, hD, fun h => hend (by simpa using h)⟩

section Took

variable {j : Nat} {D : List DocRef} {M : List Msg} {ds : List ScanReturned}

/-- **What a reader took of an operation that owes `D`, its documents first**, is a
sub-multiset of `D`. -/
theorem Produces.took_docs (h : Produces x j D) (hT : x.Took j M) (hM : ds.map .doc <+: M) :
    (ds.map ScanReturned.doc).Subperm D := by
  obtain ⟨dsj, tail, hl, htail, hD, -⟩ := h
  obtain ⟨l, hl', hp⟩ := hT.isPrefix
  cases hl.symm.trans hl'
  have hpre : ds <+: dsj := by
    have h' : docsOf (ds.map .doc) <+: docsOf (dsj.map .doc ++ tail) := (hM.trans hp).filterMap Msg.toDoc?
    rcases htail with rfl | ⟨e, rfl⟩ <;> simpa using h'
  exact (hpre.map _).sublist.subperm.trans hD

/-- **A reader that took an error after documents took all of them**: they form `D` when the
error is `end_of_stream`. -/
theorem Produces.took_error (h : Produces x j D) (hT : x.Took j M) {e : ErrorCode}
    (hM : ds.map .doc ++ [.error e] <+: M) (he : e = .endOfStream) :
    (ds.map ScanReturned.doc).Perm D := by
  obtain ⟨dsj, tail, hl, htail, -, hD⟩ := h
  obtain ⟨l, hl', hp⟩ := hT.isPrefix
  cases hl.symm.trans hl'
  rcases htail with rfl | ⟨e', rfl⟩
  · exact absurd (by simpa using hM.trans hp) not_docs_error_prefix_docs
  · obtain ⟨rfl, rfl⟩ := eq_of_docs_error_isPrefix (hM.trans hp)
    exact hD (by rw [he])

/-- What a union took of a side, its documents then the side's closed tail. -/
theorem Produces.took_closed (h : Produces x j D) (hT : x.Took j (ds.map .doc ++ closedTail o)) :
    (ds.map ScanReturned.doc).Subperm D :=
  h.took_docs hT (List.prefix_append _ _)

end Took

/-- `doFilter`'s test on a document is its predicate on the document it names. -/
theorem filter_passes_map (f : Predicate) (ds : List ScanReturned) :
    (ds.filter ((QueueKind.filter f).passes env)).map ScanReturned.doc =
      (ds.map ScanReturned.doc).filter (env.predicate f) := by
  rw [List.filter_map]
  rfl

/-- **A filter owes the documents of what its input owes that pass its predicate.** -/
theorem RoleRel.produces_filter {k j : Nat} {f : Predicate} {D : List DocRef}
    (h : RoleRel env x k (.filter f j)) (hj : Produces x j D) :
    Produces x k (D.filter (env.predicate f)) := by
  obtain ⟨M, ds, q, l, hT, -, hl, hrun⟩ := h
  have sub : ∀ fut : List ScanReturned, (ds ++ fut).map .doc <+: M →
      ((ds.filter ((QueueKind.filter f).passes env)).map ScanReturned.doc).Subperm (D.filter (env.predicate f)) :=
    fun fut hM => by
      rw [filter_passes_map]
      exact ((hj.took_docs hT ((List.prefix_append _ _).map Msg.doc |>.trans
        (by simpa using hM))).filter _)
  cases hrun with
  | reading => exact .of_docs _ (by simpa using hl) (sub _ List.prefix_rfl)
  | draining => exact .of_docs _ (by simpa using hl) (sub _ (List.prefix_append _ _))
  | ended =>
    refine .of_error _ _ (by simpa using hl) (sub [] (by simp)) fun _ => ?_
    rw [filter_passes_map]
    exact (hj.took_error hT List.prefix_rfl rfl).filter _
  | failed he =>
    exact .of_error _ _ (by simpa using hl) (sub _ (List.prefix_append _ _)) fun h => absurd h he
  | aborted _ _ => exact .of_error _ .retryable (by simpa using hl) (sub _ (List.prefix_append _ _)) nofun

/-- **A union owes what both its inputs owe.** -/
theorem RoleRel.produces_union {k a b : Nat} {Da Db : List DocRef}
    (h : RoleRel env x k (.union a b)) (ha : Produces x a Da) (hb : Produces x b Db) :
    Produces x k (Da ++ Db) := by
  obtain ⟨Ma, Mb, act, l, hTa, hTb, -, hl, hrun⟩ := h
  have sub : ∀ {da db out : List ScanReturned}, Interleaving da db out →
      (da.map ScanReturned.doc).Subperm Da → (db.map ScanReturned.doc).Subperm Db →
      (out.map ScanReturned.doc).Subperm (Da ++ Db) := fun hI hA hB => by
    rw [((hI.perm).map ScanReturned.doc).subperm_right, List.map_append]
    exact ((List.subperm_append_right _).2 hA).trans ((List.subperm_append_left _).2 hB)
  rcases hrun with hrun | ⟨-, hrun⟩
  · cases hrun with
    | merging hI _ => exact .of_docs _ hl (sub hI (ha.took_closed hTa) (hb.took_closed hTb))
    | ended hI =>
      refine .of_error _ _ hl (sub hI (ha.took_docs hTa (List.prefix_append _ _))
        (hb.took_docs hTb (List.prefix_append _ _))) fun _ => ((hI.perm).map ScanReturned.doc).trans ?_
      rw [List.map_append]
      exact (ha.took_error hTa List.prefix_rfl rfl).append (hb.took_error hTb List.prefix_rfl rfl)
    | failedA hI he =>
      exact .of_error _ _ hl (sub hI (ha.took_docs hTa (List.prefix_append _ _)) (hb.took_closed hTb))
        fun h => absurd h he
    | failedB hI he =>
      exact .of_error _ _ hl (sub hI (ha.took_closed hTa) (hb.took_docs hTb (List.prefix_append _ _)))
        fun h => absurd h he
  · cases hrun with
    | a hI => exact .of_docs _ hl (sub hI (ha.took_docs hTa (List.prefix_append _ _))
        (hb.took_docs hTb List.prefix_rfl))
    | b hI => exact .of_docs _ hl (sub hI (ha.took_docs hTa List.prefix_rfl)
        (hb.took_docs hTb (List.prefix_append _ _)))

/-- **The documents a primary-key scan over `ks` owes**: one per run of keys of one primary
key, naming that primary key. -/
def scanRefs (env : Env) (ks : List Key) : List DocRef :=
  (newPKs env.firstItem [] ks).map fun k => .stored (env.firstItem k)

theorem map_pkDoc_doc (s : Nat) (ks : List Key) :
    ((newPKs env.firstItem [] ks).map (pkDoc env s)).map ScanReturned.doc = scanRefs env ks := by
  simp [scanRefs, pkDoc, Function.comp_def]

/-- **A primary-key scan owes the documents of its keys' runs.** -/
theorem RoleRel.produces_scan {k : Nat} {ks : List Key} (h : RoleRel env x k (.scan ks)) :
    Produces x k (scanRefs env ks) := by
  obtain ⟨s, a, l, -, hl, hrun⟩ := h
  have sub : ∀ c r, ks = c ++ r →
      (((newPKs env.firstItem [] c).map (pkDoc env s)).map ScanReturned.doc).Subperm (scanRefs env ks) :=
    fun c r hks => by
      rw [map_pkDoc_doc, hks, scanRefs, scanRefs, newPKs_append, List.map_append]
      exact (List.sublist_append_left _ _).subperm
  cases hrun with
  | reading hks => exact .of_docs _ hl (sub _ _ hks)
  | holding hks _ => exact .of_docs _ hl (sub _ _ hks)
  | ended => exact .of_error _ _ hl (sub ks [] (by simp)) fun _ => by rw [map_pkDoc_doc]
  | failed hks => exact .of_error _ .retryable hl (sub _ _ hks) nofun

/-- **A point lookup owes its key's document when the key is stored.** -/
theorem RoleRel.produces_lookup {k : Nat} {key : Key} (h : RoleRel env x k (.lookup key)) :
    Produces x k (if key ∈ env.table then [.stored key] else []) := by
  obtain ⟨s, a, l, -, hl, hrun⟩ := h
  cases hrun with
  | get => exact .of_docs [] hl (by simp)
  | permit _ => exact .of_docs [] hl (by simp)
  | found hk => exact .of_error [⟨.stored key, s, key⟩] _ hl (by simp [hk]) fun _ => by simp [hk]
  | absent hk => exact .of_error [] _ hl (by simp [hk]) fun _ => by simp [hk]
  | failed => exact .of_error [] .retryable hl (by simp) nofun

theorem RoleRel.produces_ended {k : Nat} (h : RoleRel env x k .ended) : Produces x k [] :=
  .of_error [] _ h.2 (by simp) fun _ => by simp

/-! ## Every step keeps each operation in its role -/

section Step

variable {i j : Nat} {ev : Event}

/-- What an operation is and has sent is read off the checkpoint. -/
theorem Exec.actorAt_of_cp {z : Exec} (h : y.cp = z.cp) (k : Nat) : y.actorAt k = z.actorAt k := by
  simp only [Exec.actorAt, Exec.op?, h]

theorem Exec.sentAt_of_cp {z : Exec} (h : y.cp = z.cp) (k : Nat) : y.sentAt k = z.sentAt k := by
  simp only [Exec.sentAt, Exec.op?, h]

theorem Exec.Took.of_cp {z : Exec} {M : List Msg} (h : y.cp = z.cp) (hz : z.Took j M) : y.Took j M := by
  simpa only [Exec.Took, Exec.sentAt, Exec.takenAt, Exec.op?, h] using hz

/-- An operation that steps runs its actor's body. -/
theorem Exec.op_of_actorAt {k : Nat} {a : Actor} (ha : x.actorAt k = some a) :
    ∃ o, x.op? k = some o ∧ o.actor = a := by
  simpa [Exec.actorAt] using ha

/-! A step runs the body of the mover's actor. -/

theorem Exec.step_pkScan {st : PKScan} (ha : x.actorAt i = some (.pkScan st)) :
    x.step env i ev = doPKScan env x i st ev := by
  obtain ⟨o, ho, hoa⟩ := Exec.op_of_actorAt ha
  simp only [Exec.step, ho, hoa]

theorem Exec.step_singlePKLookup {st : SinglePKLookup} (ha : x.actorAt i = some (.singlePKLookup st)) :
    x.step env i ev = doSinglePKLookup env x i st ev := by
  obtain ⟨o, ho, hoa⟩ := Exec.op_of_actorAt ha
  simp only [Exec.step, ho, hoa]

theorem Exec.step_headQueue {kind : QueueKind} {st : HeadQueue} (ha : x.actorAt i = some (.headQueue kind st)) :
    x.step env i ev = headQueueStep env kind x i st ev := by
  obtain ⟨o, ho, hoa⟩ := Exec.op_of_actorAt ha
  simp only [Exec.step, ho, hoa, headQueueActor_eq]

theorem Exec.step_union {st : Union} (ha : x.actorAt i = some (.union st)) :
    x.step env i ev = doUnion x i st ev := by
  obtain ⟨o, ho, hoa⟩ := Exec.op_of_actorAt ha
  simp only [Exec.step, ho, hoa]

/-- A returned operation cannot step. -/
theorem Exec.step_finished (ha : x.actorAt i = some .finished) : x.step env i ev = none := by
  obtain ⟨o, ho, hoa⟩ := Exec.op_of_actorAt ha
  simp only [Exec.step, ho, hoa]

/-- **A step of `doPKScan`**, as any operation `i`, keeps it where `PKScanRun` says. -/
theorem PKScanRun.step_at {s : Nat} {ks : List Key} {st : PKScan} {l : List Msg}
    (ha : x.actorAt i = some (.pkScan st)) (hl : x.sentAt i = some l) (h : PKScanRun env s ks (.pkScan st) l)
    (hy : doPKScan env x i st ev = some y) :
    ∃ a l', y.actorAt i = some a ∧ y.sentAt i = some l' ∧ PKScanRun env s ks a l' := by
  generalize hA : Actor.pkScan st = A at h
  cases h with
  | reading hks =>
    rename_i c kvs lastKey
    cases hA
    cases ev <;> simp only [doPKScan, reduceCtorEq] at hy
    · -- the range read delivers its next key, or ends
      rcases kvs with _ | ⟨k, kvs⟩ <;> simp only [Option.some.injEq] at hy
      · subst hy
        obtain rfl : ks = c := by simpa using hks
        exact ⟨_, _, by simp [ha], by simp [hl], .ended⟩
      · split at hy <;> simp only [Option.some.injEq] at hy <;> subst hy
        · exact ⟨_, _, by simp [ha], by simp [hl], @PKScanRun.holding env s ks c kvs k lastKey hks ‹_›⟩
        · have hk : env.firstItem k = lastPKAfter env.firstItem [] c := not_not.1 ‹_›
          have h := @PKScanRun.reading env s ks (c ++ [k]) kvs k (by simp [hks])
          rw [lastPKAfter_snoc, hk, newPKs_snoc, if_neg (not_not.2 hk), List.append_nil] at h
          exact ⟨_, _, by simp [ha], by simp [hl], h⟩
    · -- the read fails
      simp only [Option.some.injEq] at hy
      subst hy
      exact ⟨_, _, by simp [ha], by simp [hl], .failed hks⟩
  | holding hks hk =>
    rename_i c kvs k lastKey
    cases hA
    cases ev <;> simp only [doPKScan, reduceCtorEq] at hy
    -- the permit: the document of the held key is sent
    split at hy <;> simp only [Option.some.injEq, reduceCtorEq] at hy
    subst hy
    have h := @PKScanRun.reading env s ks (c ++ [k]) kvs k (by simp [hks])
    rw [lastPKAfter_snoc, newPKs_snoc, if_pos hk] at h
    exact ⟨_, _, by simp [ha], by simp [hl, pkDoc], h⟩
  | ended | failed => cases hA

/-- **A step of `doSinglePKLookup`** keeps it where `LookupRun` says. -/
theorem LookupRun.step_at {s : Nat} {k : Key} {st : SinglePKLookup} {l : List Msg}
    (ha : x.actorAt i = some (.singlePKLookup st)) (hl : x.sentAt i = some l)
    (h : LookupRun env s k (.singlePKLookup st) l) (hy : doSinglePKLookup env x i st ev = some y) :
    ∃ a l', y.actorAt i = some a ∧ y.sentAt i = some l' ∧ LookupRun env s k a l' := by
  generalize hA : Actor.singlePKLookup st = A at h
  cases h with
  | get =>
    cases hA
    cases ev <;> simp only [doSinglePKLookup, reduceCtorEq] at hy
    · split at hy <;> simp only [Option.some.injEq] at hy <;> subst hy
      · exact ⟨_, _, by simp [ha], by simp [hl], .permit ‹_›⟩
      · exact ⟨_, _, by simp [ha], by simp [hl], .absent ‹_›⟩
    · cases hy
      exact ⟨_, _, by simp [ha], by simp [hl], .failed⟩
  | permit hk =>
    cases hA
    cases ev <;> simp only [doSinglePKLookup, reduceCtorEq] at hy
    split at hy <;> simp only [Option.some.injEq, reduceCtorEq] at hy
    subst hy
    exact ⟨_, _, by simp [ha], by simp [hl], .found hk⟩
  | found | absent | failed => cases hA

theorem Exec.Took.decide {M : List Msg} (hT : x.Took j M) (p : Bool) (m : Msg) :
    (if p then x.send i m else x.releasePermit).Took j M := by
  split
  · exact hT.send _ _
  · exact hT.of_frame ((Exec.Frame.refl i x).releasePermit) rfl

/-- **A queue move of a stage reading `j`**, as any operation `i`, keeps it where `QueueRun`
says of what it has taken of `j`. -/
theorem QueueRun.step_at {passes : ScanReturned → Bool} {mk : List ScanReturned × Bool → Actor}
    {M : List Msg} {ds fut : List ScanReturned} {ended : Bool} {l : List Msg}
    (ha : x.actorAt i = some (mk (fut, ended))) (hl : x.sentAt i = some l) (hT : x.Took j M)
    (h : QueueRun passes M ds (some (fut, ended)) l) (hm : QueueMove passes mk i j x fut ended ev y) :
    ∃ M' ds' q l', y.Took j M' ∧ y.actorAt i = some (q.elim .finished mk) ∧ y.sentAt i = some l' ∧
      QueueRun passes M' ds' q l' := by
  cases hm with
  | receive hp hy =>
    rename_i d
    cases h
    refine ⟨_, ds, some (fut ++ [d], false), (ds.filter passes).map .doc, .of_cp hy ((hT.pop hp).setActor _ _),
      by rw [Exec.actorAt_of_cp hy]; simp [ha], by rw [Exec.sentAt_of_cp hy]; simp [hl], ?_⟩
    simpa using @QueueRun.reading passes ds (fut ++ [d])
  | close hp hy =>
    cases h
    refine ⟨_, ds, none, (ds.filter passes).map .doc ++ [.error .endOfStream],
      .of_cp hy (((hT.pop hp).send _ _).setActor _ _),
      by rw [Exec.actorAt_of_cp hy]; simp [ha], by rw [Exec.sentAt_of_cp hy]; simp [hl], ?_⟩
    simpa using @QueueRun.ended passes ds
  | drain hp hne hy =>
    cases h
    exact ⟨_, ds, some (fut, true), _, .of_cp hy ((hT.pop hp).setActor _ _),
      by rw [Exec.actorAt_of_cp hy]; simp [ha], by rw [Exec.sentAt_of_cp hy]; simp [hl], .draining hne⟩
  | fail hp he hy =>
    cases h
    exact ⟨_, ds, none, _, .of_cp hy (((hT.pop hp).send _ _).setActor _ _),
      by rw [Exec.actorAt_of_cp hy]; simp [ha], by rw [Exec.sentAt_of_cp hy]; simp [hl], .failed he⟩
  | decide hnot hy =>
    rename_i d rest
    obtain rfl : l = (ds.filter passes).map .doc := by cases h <;> rfl
    have hsent : y.sentAt i = some ((((ds ++ [d]).filter passes).map .doc)) := by
      rw [Exec.sentAt_of_cp hy, filter_snoc_map]
      by_cases hp : passes d <;> simp [hp, hl]
    refine ⟨M, ds ++ [d], some (rest, ended), _, .of_cp hy ((hT.decide _ _).setActor _ _),
      by rw [Exec.actorAt_of_cp hy]; split <;> simp [ha], hsent, ?_⟩
    cases h with
    | reading => simpa using @QueueRun.reading passes (ds ++ [d]) rest
    | draining => simpa using @QueueRun.draining passes (ds ++ [d]) rest fun hr => hnot ⟨rfl, hr⟩
  | last hy =>
    rename_i d
    cases h
    rename_i hne
    have hsent : y.sentAt i = some ((((ds ++ [d]).filter passes).map .doc) ++ [.error .endOfStream]) := by
      rw [Exec.sentAt_of_cp hy, filter_snoc_map]
      by_cases hp : passes d <;> simp [hp, hl]
    refine ⟨_, ds ++ [d], none, _, .of_cp hy (((hT.decide _ _).send _ _).setActor _ _),
      by rw [Exec.actorAt_of_cp hy]; split <;> simp [ha], hsent, ?_⟩
    simpa using @QueueRun.ended passes (ds ++ [d])
  | abort hy =>
    rename_i d rest
    obtain rfl : l = (ds.filter passes).map .doc := by cases h <;> rfl
    refine ⟨M, ds, none, (ds.filter passes).map .doc ++ [.error .retryable], .of_cp hy ((hT.send _ _).setActor _ _),
      by rw [Exec.actorAt_of_cp hy]; simp [ha], by rw [Exec.sentAt_of_cp hy]; simp [hl], ?_⟩
    cases h with
    | reading => simpa using @QueueRun.aborted passes ds (d :: rest) [] (List.cons_ne_nil d rest) (.inl rfl)
    | draining => exact .aborted (List.cons_ne_nil d rest) (.inr rfl)

/-- **A step of `doUnion` reading `a` and `b`**, as any operation `i`, keeps it where
`UnionRun` says of what it has taken of each side, or strands it. -/
theorem UnionRun.step_at {a b : Nat} {Ma Mb : List Msg} {aOpen bOpen : Bool} {l : List Msg}
    (hab : a ≠ b) (ha : x.actorAt i = some (.union ⟨a, b, aOpen, bOpen⟩)) (hl : x.sentAt i = some l)
    (hTa : x.Took a Ma) (hTb : x.Took b Mb) (h : UnionRun a b Ma Mb (.union ⟨a, b, aOpen, bOpen⟩) l)
    (hy : doUnion x i ⟨a, b, aOpen, bOpen⟩ ev = some y) :
    ∃ Ma' Mb' act l', y.Took a Ma' ∧ y.Took b Mb' ∧ y.actorAt i = some act ∧ y.sentAt i = some l' ∧
      (UnionRun a b Ma' Mb' act l' ∨ act = .finished ∧ Stranded Ma' Mb' l') := by
  cases h with
  | @merging da db out _ _ hI hopen =>
  cases ev <;> simp only [doUnion, reduceCtorEq] at hy
  · -- side `a` delivers its next message
    cases aOpen
    · simp at hy
    simp only [closedTail_true, List.append_nil] at hTa
    simp only [not_true_eq_false, ↓reduceIte] at hy
    split at hy
    · -- a document: forwarded
      rename_i d hp
      cases hy
      exact ⟨_, _, .union ⟨a, b, true, bOpen⟩, (out ++ [d]).map .doc, (hTa.pop hp).send _ _,
        (hTb.popInput_ne hab.symm).send _ _, by simpa using ha, by simp [hl],
        .inl (by simpa using @UnionRun.merging a b (da ++ [d]) db (out ++ [d]) true bOpen (hI.left d) hopen)⟩
    · -- `end_of_stream`: side `a` closes
      rename_i hp
      have hTa' := hTa.pop hp
      have hTb' := hTb.popInput_ne hab.symm
      cases bOpen
      · simp only [unionEndOfStream] at hy
        cases hy
        exact ⟨_, _, .finished, out.map .doc ++ [.error .endOfStream], (hTa'.send _ _).setActor _ _,
          (hTb'.send _ _).setActor _ _, by simp [ha], by simp [hl],
          .inl (by simpa using @UnionRun.ended a b da db out hI)⟩
      simp only [closedTail_true, List.append_nil, unionEndOfStream] at hTb hTb' hy
      split at hy
      · rename_i e _ hpb
        split at hy
        · -- side `b` had ended too: the output ends
          subst e
          cases hy
          exact ⟨_, _, .finished, out.map .doc ++ [.error .endOfStream],
            ((hTa'.popInput_ne hab).send _ _).setActor _ _, ((hTb'.pop hpb).send _ _).setActor _ _,
            by simp [ha], by simp [hl], .inl (by simpa using @UnionRun.ended a b da db out hI)⟩
        · -- side `b` holds another error: the source's assertion fails
          cases hy
          exact ⟨_, _, .finished, out.map .doc, hTa'.setActor _ _, hTb'.setActor _ _, by simp [ha],
            by simp [hl], .inr ⟨rfl, @Stranded.a da db out hI⟩⟩
      · cases hy
        exact ⟨_, _, .union ⟨a, b, false, true⟩, out.map .doc, hTa'.setActor _ _, hTb'.setActor _ _,
          by simp [ha], by simp [hl], .inl (by simpa using @UnionRun.merging a b da db out false true hI rfl)⟩
      · contradiction
    · -- another error: the output ends with it
      rename_i e he hp
      cases hy
      exact ⟨_, _, .finished, out.map .doc ++ [.error e], ((hTa.pop hp).send _ _).setActor _ _,
        ((hTb.popInput_ne hab.symm).send _ _).setActor _ _, by simp [ha], by simp [hl],
        .inl (by simpa using @UnionRun.failedA a b da db out e bOpen hI he)⟩
    · cases hy
  · -- side `b` delivers its next message
    cases bOpen
    · simp at hy
    simp only [closedTail_true, List.append_nil] at hTb
    simp only [not_true_eq_false, ↓reduceIte] at hy
    split at hy
    · rename_i d hp
      cases hy
      exact ⟨_, _, .union ⟨a, b, aOpen, true⟩, (out ++ [d]).map .doc, (hTa.popInput_ne hab).send _ _,
        (hTb.pop hp).send _ _, by simpa using ha, by simp [hl],
        .inl (by simpa using @UnionRun.merging a b da (db ++ [d]) (out ++ [d]) aOpen true (hI.right d) hopen)⟩
    · rename_i hp
      have hTb' := hTb.pop hp
      have hTa' := hTa.popInput_ne hab
      cases aOpen
      · simp only [unionEndOfStream] at hy
        cases hy
        exact ⟨_, _, .finished, out.map .doc ++ [.error .endOfStream], (hTa'.send _ _).setActor _ _,
          (hTb'.send _ _).setActor _ _, by simp [ha], by simp [hl],
          .inl (by simpa using @UnionRun.ended a b da db out hI)⟩
      simp only [closedTail_true, List.append_nil, unionEndOfStream] at hTa hTa' hy
      split at hy
      · rename_i e _ hpa
        split at hy
        · subst e
          cases hy
          exact ⟨_, _, .finished, out.map .doc ++ [.error .endOfStream],
            ((hTa'.pop hpa).send _ _).setActor _ _, ((hTb'.popInput_ne hab.symm).send _ _).setActor _ _,
            by simp [ha], by simp [hl], .inl (by simpa using @UnionRun.ended a b da db out hI)⟩
        · cases hy
          exact ⟨_, _, .finished, out.map .doc, hTa'.setActor _ _, hTb'.setActor _ _, by simp [ha],
            by simp [hl], .inr ⟨rfl, @Stranded.b da db out hI⟩⟩
      · cases hy
        exact ⟨_, _, .union ⟨a, b, true, false⟩, out.map .doc, hTa'.setActor _ _, hTb'.setActor _ _,
          by simp [ha], by simp [hl], .inl (by simpa using @UnionRun.merging a b da db out true false hI rfl)⟩
      · contradiction
    · rename_i e he hp
      cases hy
      exact ⟨_, _, .finished, out.map .doc ++ [.error e], ((hTa.popInput_ne hab).send _ _).setActor _ _,
        ((hTb.pop hp).send _ _).setActor _ _, by simp [ha], by simp [hl],
        .inl (by simpa using @UnionRun.failedB a b da db out e aOpen hI he)⟩
    · cases hy

/-! A lookup's and a union's actor is the streaming actor or a returned one, as a scan's is
(`PKScanRun.actor`). -/

theorem LookupRun.actor_cases {s : Nat} {k : Key} {a : Actor} {l : List Msg}
    (h : LookupRun env s k a l) : (∃ st, a = .singlePKLookup st) ∨ a = .finished := by
  cases h <;> simp

theorem UnionRun.actor_cases {a b : Nat} {Ma Mb : List Msg} {act : Actor} {l : List Msg}
    (h : UnionRun a b Ma Mb act l) : (∃ aOpen bOpen, act = .union ⟨a, b, aOpen, bOpen⟩) ∨ act = .finished := by
  cases h <;> simp

/-- **A step of an operation keeps it in its role.** -/
theorem RoleRel.step {r : Role} (h : RoleRel env x i r) (hnd : r.inputs.Nodup)
    (hs : x.step env i ev = some y) : RoleRel env y i r := by
  cases r with
  | scan ks =>
    obtain ⟨s, a, l, ha, hl, hrun⟩ := h
    rcases hrun.actor with ⟨st, rfl⟩ | rfl
    · exact ⟨s, PKScanRun.step_at ha hl hrun (by rwa [Exec.step_pkScan ha] at hs)⟩
    · simp [Exec.step_finished ha] at hs
  | lookup k =>
    obtain ⟨s, a, l, ha, hl, hrun⟩ := h
    rcases hrun.actor_cases with ⟨st, rfl⟩ | rfl
    · exact ⟨s, LookupRun.step_at ha hl hrun (by rwa [Exec.step_singlePKLookup ha] at hs)⟩
    · simp [Exec.step_finished ha] at hs
  | ended => simp [Exec.step_finished h.1] at hs
  | filter f j =>
    obtain ⟨M, ds, q, l, hT, ha, hl, hrun⟩ := h
    rcases q with _ | ⟨fut, ended⟩
    · simp [Exec.step_finished ha] at hs
    · rw [Exec.step_headQueue ha] at hs
      exact QueueRun.step_at ha hl hT hrun (headQueueStep_queueMove hs)
  | union a b =>
    obtain ⟨Ma, Mb, act, l, hTa, hTb, ha, hl, hrun | ⟨rfl, -⟩⟩ := h
    · rcases hrun.actor_cases with ⟨aOpen, bOpen, rfl⟩ | rfl
      · rw [Exec.step_union ha] at hs
        exact UnionRun.step_at (by simpa [Role.inputs] using hnd) ha hl hTa hTb hrun hs
      · simp [Exec.step_finished ha] at hs
    · simp [Exec.step_finished ha] at hs

/-- **A move of another operation keeps an operation in its role** when it takes nothing from
the role's inputs. -/
theorem RoleRel.frame {k : Nat} {r : Role} (h : RoleRel env x k r) (hf : Exec.Frame i x y) (hk : k ≠ i)
    (ht : ∀ j ∈ r.inputs, y.takenAt j = x.takenAt j) : RoleRel env y k r := by
  have hA := hf.actorAt k hk
  have hS := hf.sentAt k hk
  cases r with
  | scan | lookup =>
    obtain ⟨s, a, l, ha, hl, hrun⟩ := h
    exact ⟨s, a, l, hA.trans ha, hS.trans hl, hrun⟩
  | ended => exact ⟨hA.trans h.1, hS.trans h.2⟩
  | filter f j =>
    obtain ⟨M, ds, q, l, hT, ha, hl, hrun⟩ := h
    exact ⟨M, ds, q, l, hT.of_frame hf (ht j (by simp [Role.inputs])), hA.trans ha, hS.trans hl, hrun⟩
  | union a b =>
    obtain ⟨Ma, Mb, act, l, hTa, hTb, ha, hl, hrun⟩ := h
    exact ⟨Ma, Mb, act, l, hTa.of_frame hf (ht a (by simp [Role.inputs])),
      hTb.of_frame hf (ht b (by simp [Role.inputs])), hA.trans ha, hS.trans hl, hrun⟩

end Step

/-! ## The network -/

/-- **Roles wired as `execute` registers them**: each operation reads earlier ones, each at
most once, and every stream is read by one operation, its `parent`. -/
structure Wired (roles : List Role) : Prop where
  earlier : ∀ (k : Nat) (r : Role), roles[k]? = some r → ∀ j ∈ r.inputs, j < k
  nodup : ∀ (k : Nat) (r : Role), roles[k]? = some r → r.inputs.Nodup
  parent : ∃ parent : Nat → Nat, ∀ (k : Nat) (r : Role), roles[k]? = some r → ∀ j ∈ r.inputs, parent j = k

/-- **Every operation of `x` plays its role**, and there are no others. -/
structure Net (env : Env) (roles : List Role) (x : Exec) : Prop where
  none_after : ∀ k, roles.length ≤ k → x.actorAt k = none
  rel : ∀ (k : Nat) (r : Role), roles[k]? = some r → RoleRel env x k r

/-- The consumer takes only from the output. -/
theorem Exec.consume_takenAt {root j : Nat} (hc : x.consume root = some y) (hj : j ≠ root) :
    y.takenAt j = x.takenAt j := by
  unfold Exec.consume at hc
  split at hc <;> cases hc <;> simp [hj]

section Net

variable {roles : List Role} {root : Nat}

/-- **A step keeps the network**: the mover stays in its role, and every other operation keeps
its own, having no input the mover reads. -/
theorem Net.step (hw : Wired roles) (h : Net env roles x) {i : Nat} {ev : Event}
    (hs : x.step env i ev = some y) : Net env roles y := by
  obtain ⟨a, ha⟩ := Exec.actorAt_of_step hs
  have hi : i < roles.length := by
    by_contra hle
    simp [h.none_after i (by omega)] at ha
  obtain ⟨ri, hri⟩ : ∃ r, roles[i]? = some r := ⟨_, List.getElem?_eq_getElem hi⟩
  have hf := step_frame hs
  refine ⟨fun k hk => by rw [hf.actorAt k (by omega)]; exact h.none_after k hk, fun k r hr => ?_⟩
  by_cases hki : k = i
  · subst hki
    cases hri.symm.trans hr
    exact (h.rel k _ hr).step (hw.nodup k _ hr) hs
  · obtain ⟨parent, hparent⟩ := hw.parent
    refine (h.rel k r hr).frame hf hki fun j hj => (step_readsOnly ha hs).takenAt j fun hja => hki ?_
    exact (hparent k r hr j hj).symm.trans (hparent i ri hri j ((h.rel i ri hri).inputs_subset ha j hja))

/-- **The consumer's move keeps the network**: it takes from the output, which no role reads. -/
theorem Net.consume (hw : Wired roles) (h : Net env roles x) (hroot : root + 1 = roles.length)
    (hc : x.consume root = some y) : Net env roles y := by
  refine ⟨fun k hk => by rw [(consume_frame hc (k + 1)).actorAt k (by omega)]; exact h.none_after k hk,
    fun k r hr => ?_⟩
  have hk : k < roles.length := (List.getElem?_eq_some_iff.1 hr).1
  refine (h.rel k r hr).frame (consume_frame hc (k + 1)) (by omega) fun j hj => Exec.consume_takenAt hc ?_
  have := hw.earlier k r hr j hj
  omega

theorem Net.move (hw : Wired roles) (h : Net env roles x) (hroot : root + 1 = roles.length) {c : Choice}
    (hm : x.move env root c = some y) : Net env roles y := by
  cases c with
  | step i ev => exact h.step hw hm
  | consume => exact h.consume hw hroot hm

end Net

end DocLayer
