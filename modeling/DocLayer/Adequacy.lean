import DocLayer.Network
import DocLayer.NonIsolatedScan
import DocLayer.PushdownSemantics

/-! # The streaming plans emit what `Plan.emits` says

`Plan.emits` is the rewriter's reading of a plan: the primary keys each operator emits, as a
function of the collection. This module shows it is what the executed plan does for the plans
of the streaming operators — table scans, primary-key lookups, filters, unions and
`EmptyPlan` — executed on a fresh checkpoint: in every state of every run, whatever order its
moves take, the plan's output has sent documents naming a sub-multiset of the primary keys
`Plan.emits` gives, and all of them once it has ended with `end_of_stream`.

* **`Plan.roles`** — the role of each operation `execute` registers, computed as `execute`
  computes it; **`Subnet`** — the roles of a subplan read only the subplan's operations, each
  stream once (`Plan.roles_subnet`), so the roles of a whole plan are `Wired`.
* **`Plan.execute_starts`** — `execute` registers every operation at the start of its role;
  with the network's step lemmas every reachable state keeps each operation in its role
  (`Reachable.net`).
* **`Env.Stored`, `Env.PartLike`, `Agrees`** — the executor's table is a collection's: its
  keys begin with their document's primary key, each document has a key at its primary key,
  and a lookup's bound is a key part as the primary keys are; `C` describes that collection:
  its documents are the table's primary keys and its predicates are the executor's.
* **`streaming_plan_emits`** — the result, by induction on the plan: each operator's case
  from what its inputs owe (`Produces`), the scans' and lookups' from the order of keys. -/

namespace DocLayer

variable {env : Env}

/-! ## The roles of a plan's operations -/

/-- **The plans of the streaming operators.** -/
def Plan.streaming : Plan → Bool
  | .tableScan | .primaryKeyLookup _ _ | .empty => true
  | .filter source _ => source.streaming
  | .union plan1 plan2 => plan1.streaming && plan2.streaming
  | _ => false

/-- The role of a range scan over `[r.1, r.2)`. -/
def rangeRole (env : Env) (r : Key × Key) : Role := .scan (getDescendants env.table r.1 r.2)

/-- **The roles of the operations `execute` registers for a plan from index `n`**, on a
checkpoint whose scans have the default bounds `["", "\xff")`, in registration order, the plan's
output last. A table scan reads the range of a lookup without bounds. `none` where `execute`
fails, and for the plans that are not streaming. -/
def Plan.roles (env : Env) : Plan → Nat → Option (List Role)
  | .tableScan, _ => (scanRange none none ([], allKeysEnd)).map fun r => [rangeRole env r]
  | .primaryKeyLookup (some b) (some e), _ =>
    if b = e then some [if ([] : Key) ≤ b ∧ b < allKeysEnd then .lookup b else .ended]
    else (scanRange (some b) (some e) ([], allKeysEnd)).map fun r => [rangeRole env r]
  | .primaryKeyLookup b e, _ => (scanRange b e ([], allKeysEnd)).map fun r => [rangeRole env r]
  | .empty, _ => some [.ended]
  | .filter source f, n => (source.roles env n).map fun R => R ++ [.filter f (n + R.length - 1)]
  | .union plan1 plan2, n => do
    let Ra ← plan1.roles env n
    let Rb ← plan2.roles env (n + Ra.length)
    pure (Ra ++ Rb ++ [.union (n + Ra.length - 1) (n + Ra.length + Rb.length - 1)])
  | _, _ => none

/-! ## The roles of a subplan form a tree -/

/-- **The roles of a subplan registered from index `n`**: there is at least one; each reads
earlier operations of the subplan, none twice; and every stream is read by one of them, its
`parent`. So the subplan's output, its last operation, is read by none of them. -/
structure Subnet (n : Nat) (R : List Role) : Prop where
  ne_nil : R ≠ []
  reads : ∀ (i : Nat) (r : Role), R[i]? = some r → ∀ j ∈ r.inputs, n ≤ j ∧ j < n + i
  nodup : ∀ (i : Nat) (r : Role), R[i]? = some r → r.inputs.Nodup
  parent : ∃ parent : Nat → Nat, ∀ (i : Nat) (r : Role), R[i]? = some r → ∀ j ∈ r.inputs, parent j = n + i

section Subnet

variable {n i : Nat} {R R' : List Role} {r u : Role}

/-- A role of `R ++ R'` is one of `R`, or one of `R'` further on. -/
theorem getElem?_append_eq_some (h : (R ++ R')[i]? = some r) :
    (i < R.length ∧ R[i]? = some r) ∨ (R.length ≤ i ∧ R'[i - R.length]? = some r) := by
  rcases Nat.lt_or_ge i R.length with hi | hi
  · exact .inl ⟨hi, by rwa [List.getElem?_append_left hi] at h⟩
  · exact .inr ⟨hi, by rwa [List.getElem?_append_right hi] at h⟩

/-- The last role of `R ++ [u]` is `u`. -/
theorem getElem?_snoc_eq_some (h : (R ++ [u])[i]? = some r) :
    (i < R.length ∧ R[i]? = some r) ∨ (i = R.length ∧ r = u) := by
  refine (getElem?_append_eq_some h).imp_right fun ⟨hi, h'⟩ => ?_
  obtain ⟨hlt, rfl⟩ := List.getElem?_eq_some_iff.1 h'
  simp only [List.length_singleton] at hlt
  exact ⟨by omega, by simp⟩

theorem Subnet.length_pos (h : Subnet n R) : 0 < R.length := List.length_pos.2 h.ne_nil

/-- **An operation with no input** is a subplan on its own. -/
theorem Subnet.leaf (hr : r.inputs = []) : Subnet n [r] := by
  have hin : ∀ (i : Nat) (r' : Role), [r][i]? = some r' → r'.inputs = [] := fun i r' h => by
    obtain ⟨hlt, rfl⟩ := List.getElem?_eq_some_iff.1 h
    simp only [List.length_singleton, Nat.lt_one_iff] at hlt
    subst hlt
    exact hr
  exact ⟨List.cons_ne_nil _ _, fun i r' h j hj => by simp [hin i r' h] at hj,
    fun i r' h => by simp [hin i r' h], ⟨id, fun i r' h j hj => by simp [hin i r' h] at hj⟩⟩

/-- **A filter over a subplan** reads its output, which nothing else reads. -/
theorem Subnet.filter (h : Subnet n R) (f : Predicate) : Subnet n (R ++ [.filter f (n + R.length - 1)]) := by
  have hpos := h.length_pos
  obtain ⟨parent, hparent⟩ := h.parent
  refine ⟨by simp, fun i r hr j hj => ?_, fun i r hr => ?_,
    ⟨fun j => if j = n + R.length - 1 then n + R.length else parent j, fun i r hr j hj => ?_⟩⟩
  · rcases getElem?_snoc_eq_some hr with ⟨hi, hr⟩ | ⟨rfl, rfl⟩
    · exact h.reads i r hr j hj
    · simp only [Role.inputs, List.mem_singleton] at hj
      omega
  · rcases getElem?_snoc_eq_some hr with ⟨-, hr⟩ | ⟨-, rfl⟩
    · exact h.nodup i r hr
    · simp [Role.inputs]
  · rcases getElem?_snoc_eq_some hr with ⟨hi, hr⟩ | ⟨rfl, rfl⟩
    · have := h.reads i r hr j hj
      dsimp only
      rw [if_neg (by omega)]
      exact hparent i r hr j hj
    · simp only [Role.inputs, List.mem_singleton] at hj
      simp only [hj, if_true]

/-- **A union of two subplans** reads their outputs, which nothing else reads. -/
theorem Subnet.union {Ra Rb : List Role} (ha : Subnet n Ra) (hb : Subnet (n + Ra.length) Rb) :
    Subnet n (Ra ++ Rb ++ [.union (n + Ra.length - 1) (n + Ra.length + Rb.length - 1)]) := by
  have hpa := ha.length_pos
  have hpb := hb.length_pos
  obtain ⟨pa, hpa'⟩ := ha.parent
  obtain ⟨pb, hpb'⟩ := hb.parent
  -- the three parts: a role of the first subplan, of the second, or the union
  have parts : ∀ {i r}, (Ra ++ Rb ++ [.union (n + Ra.length - 1) (n + Ra.length + Rb.length - 1)])[i]? = some r →
      (i < Ra.length ∧ Ra[i]? = some r) ∨
      (Ra.length ≤ i ∧ i - Ra.length < Rb.length ∧ Rb[i - Ra.length]? = some r) ∨
      (i = Ra.length + Rb.length ∧ r = .union (n + Ra.length - 1) (n + Ra.length + Rb.length - 1)) := by
    intro i r hr
    rcases getElem?_snoc_eq_some hr with ⟨hi, hr⟩ | ⟨hi, rfl⟩
    · rcases getElem?_append_eq_some hr with h | ⟨hle, h⟩
      · exact .inl h
      · exact .inr (.inl ⟨hle, (List.getElem?_eq_some_iff.1 h).1, h⟩)
    · exact .inr (.inr ⟨by simpa using hi, rfl⟩)
  refine ⟨by simp, fun i r hr j hj => ?_, fun i r hr => ?_,
    ⟨fun j => if j = n + Ra.length - 1 ∨ j = n + Ra.length + Rb.length - 1 then n + Ra.length + Rb.length
      else if j < n + Ra.length then pa j else pb j, fun i r hr j hj => ?_⟩⟩
  · rcases parts hr with ⟨-, hr⟩ | ⟨hle, -, hr⟩ | ⟨rfl, rfl⟩
    · exact ha.reads i r hr j hj
    · have := hb.reads _ r hr j hj
      omega
    · simp only [Role.inputs, List.mem_cons, List.mem_singleton, List.not_mem_nil, or_false] at hj
      omega
  · rcases parts hr with ⟨-, hr⟩ | ⟨-, -, hr⟩ | ⟨-, rfl⟩
    · exact ha.nodup i r hr
    · exact hb.nodup _ r hr
    · simp only [Role.inputs, List.nodup_cons, List.mem_singleton, List.not_mem_nil, not_false_eq_true,
        List.nodup_nil, and_true]
      omega
  · dsimp only
    rcases parts hr with ⟨hi, hr⟩ | ⟨hle, hi, hr⟩ | ⟨rfl, rfl⟩
    · have := ha.reads i r hr j hj
      rw [if_neg (by omega), if_pos (by omega)]
      exact hpa' i r hr j hj
    · have := hb.reads _ r hr j hj
      rw [if_neg (by omega), if_neg (by omega), hpb' _ r hr j hj]
      omega
    · simp only [Role.inputs, List.mem_cons, List.mem_singleton, List.not_mem_nil, or_false] at hj
      rw [if_pos hj]
      omega

/-- **The roles of a whole plan are wired**: a subplan registered from index `0`. -/
theorem Subnet.wired (h : Subnet 0 R) : Wired R := by
  obtain ⟨parent, hparent⟩ := h.parent
  exact ⟨fun k r hr j hj => by simpa using (h.reads k r hr j hj).2, h.nodup,
    ⟨parent, fun k r hr j hj => by simpa using hparent k r hr j hj⟩⟩

end Subnet

/-- The range scan's role reads nothing. -/
@[simp] theorem rangeRole_inputs (r : Key × Key) : (rangeRole env r).inputs = [] := rfl

/-- **The roles `execute` registers for a plan form a subplan.** -/
theorem Plan.roles_subnet : ∀ (P : Plan) (n : Nat) {R : List Role}, P.roles env n = some R → Subnet n R
  | .tableScan, n, R, h | .primaryKeyLookup none _, n, R, h | .primaryKeyLookup (some _) none, n, R, h => by
    obtain ⟨_, -, rfl⟩ := Option.map_eq_some'.1 h
    exact .leaf rfl
  | .primaryKeyLookup (some b) (some e), n, R, h => by
    simp only [Plan.roles] at h
    split at h
    · cases h
      exact .leaf (by split <;> rfl)
    · obtain ⟨_, -, rfl⟩ := Option.map_eq_some'.1 h
      exact .leaf rfl
  | .empty, n, R, h => by
    cases h
    exact .leaf rfl
  | .filter source f, n, R, h => by
    obtain ⟨Rs, hs, rfl⟩ := Option.map_eq_some'.1 h
    exact (source.roles_subnet n hs).filter f
  | .union plan1 plan2, n, R, h => by
    simp only [Plan.roles, Option.bind_eq_bind, Option.bind_eq_some, Option.pure_def, Option.some.injEq] at h
    obtain ⟨Ra, ha, Rb, hb, rfl⟩ := h
    exact (plan1.roles_subnet n ha).union (plan2.roles_subnet _ hb)
  | .indexScan _ _ _, _, _, h | .projection _, _, _, h | .skip _ _, _, _, h | .update _ _ _, _, _, h
  | .flushChanges _, _, _, h | .projectAndUpdate _ _ _, _, _, h | .buildIndex _, _, _, h
  | .indexInsert _ _, _, _, h | .insert _, _, _, h => by cases h

/-! ## Every reachable state plays the roles -/

/-- **How `execute` registers the operation of a role**: its actor at the role's start, with a
fresh output; an operation that ended inside `execute` has returned and sent `end_of_stream`. -/
def Role.Starts : Role → Op → Prop
  | .scan ks, o => ∃ s, o = ⟨.pkScan ⟨s, ks, [], [], .nextKey⟩, .empty⟩
  | .lookup k, o => ∃ s, o = ⟨.singlePKLookup ⟨s, k, .get⟩, .empty⟩
  | .ended, o => o = ⟨.finished, Stream.empty.send (.error .endOfStream)⟩
  | .filter f j, o => o = ⟨.headQueue (.filter f) ⟨j, [], false⟩, .empty⟩
  | .union a b, o => o = ⟨.union ⟨a, b, true, true⟩, .empty⟩

section Starts

variable {x : Exec} {k : Nat} {r : Role} {o : Op}

/-- A registered operation's output has nothing taken. -/
theorem Role.Starts.taken (h : r.Starts o) : o.output.taken = 0 := by
  cases r with
  | scan | lookup => obtain ⟨s, rfl⟩ := h; rfl
  | ended | filter | union => subst h; rfl

/-- A stream whose reader has taken nothing. -/
theorem Exec.Took.start {j : Nat} (h : x.op? j = some o) (ht : o.output.taken = 0) : x.Took j [] :=
  ⟨o.output.sent, 0, by simp [Exec.sentAt, h], by simp [Exec.takenAt, h, ht], Nat.zero_le _, rfl⟩

/-- **An operation at the start of its role plays it**, its inputs being untaken. -/
theorem Role.Starts.roleRel (hs : r.Starts o) (ho : x.op? k = some o) (hT : ∀ j ∈ r.inputs, x.Took j []) :
    RoleRel env x k r := by
  have ha : x.actorAt k = some o.actor := by simp [Exec.actorAt, ho]
  have hl : x.sentAt k = some o.output.sent := by simp [Exec.sentAt, ho]
  cases r with
  | scan ks =>
    obtain ⟨s, rfl⟩ := hs
    exact ⟨s, _, _, ha, hl, @PKScanRun.reading env s ks [] ks [] rfl⟩
  | lookup key =>
    obtain ⟨s, rfl⟩ := hs
    exact ⟨s, _, _, ha, hl, .get⟩
  | ended =>
    subst hs
    exact ⟨ha, hl⟩
  | filter f j =>
    subst hs
    exact ⟨[], [], some ([], false), [], hT j (by simp [Role.inputs]), ha, hl,
      @QueueRun.reading ((QueueKind.filter f).passes env) [] []⟩
  | union a b =>
    subst hs
    exact ⟨[], [], _, [], hT a (by simp [Role.inputs]), hT b (by simp [Role.inputs]), ha, hl,
      .inl (@UnionRun.merging a b [] [] [] true true .nil rfl)⟩

/-- The `k`-th role is at the start of the `k`-th registered operation. -/
theorem Role.starts_getElem? {R : List Role} {os : List Op} (hF : List.Forall₂ Role.Starts R os) :
    ∀ {k : Nat} {r : Role}, R[k]? = some r → ∃ o, os[k]? = some o ∧ r.Starts o := by
  induction hF with
  | nil => simp
  | cons h _ ih =>
    intro k r hr
    cases k with
    | zero =>
      simp only [List.getElem?_cons_zero, Option.some.injEq] at hr
      subst hr
      exact ⟨_, List.getElem?_cons_zero, h⟩
    | succ k => simpa using ih (by simpa using hr)

end Starts

/-- A range lookup registers one range scan over the range `scanRange` computes. -/
theorem execute_range_starts {cp cp' : PlanCheckpoint} {root : Nat} {b e : Option Key}
    (hb : ∀ s, cp.getBounds s = ([], allKeysEnd))
    (h : ∃ a, scanRange b e (cp.addScan.1.getBounds cp.addScan.2) = some a ∧
      cp.addScan.1.register (.pkScan ⟨cp.addScan.2, getDescendants env.table a.1 a.2, [], [], .nextKey⟩) =
        (cp', root)) :
    ∃ R os, (scanRange b e ([], allKeysEnd)).map (fun r => [rangeRole env r]) = some R ∧
      cp'.ops = cp.ops ++ os ∧ List.Forall₂ Role.Starts R os := by
  obtain ⟨a, ha, h⟩ := h
  rw [PlanCheckpoint.getBounds_addScan, hb] at ha
  obtain ⟨rfl, -⟩ := Prod.ext_iff.1 h
  exact ⟨[rangeRole env a], _, by rw [ha]; rfl, rfl, .cons ⟨_, rfl⟩ .nil⟩

/-- **`execute` registers every operation of a streaming plan at the start of its role**, on a
checkpoint whose scans have the default bounds: after the operations registered before, one
operation per role `Plan.roles` gives. -/
theorem Plan.execute_starts : ∀ (P : Plan) {cp cp' : PlanCheckpoint} {root : Nat}, P.streaming = true →
    (∀ s, cp.getBounds s = ([], allKeysEnd)) → P.execute env cp = some (cp', root) →
    ∃ R os, P.roles env cp.ops.length = some R ∧ cp'.ops = cp.ops ++ os ∧ List.Forall₂ Role.Starts R os
  | .tableScan, cp, cp', root, _, hb, h => by
    simp only [Plan.execute, Option.pure_def, Option.some.injEq] at h
    rw [PlanCheckpoint.getBounds_addScan, hb] at h
    obtain ⟨rfl, -⟩ := Prod.ext_iff.1 h
    exact ⟨[.scan _], _, rfl, rfl, .cons ⟨_, rfl⟩ .nil⟩
  | .primaryKeyLookup (some b) (some e), cp, cp', root, _, hb, h => by
    simp only [Plan.execute, Option.bind_eq_bind, Option.pure_def] at h
    split at h
    · subst e
      rw [PlanCheckpoint.getBounds_addScan, hb] at h
      split at h <;> simp only [Option.some.injEq] at h <;> obtain ⟨rfl, -⟩ := Prod.ext_iff.1 h
      · exact ⟨[.lookup b], _, by simp only [Plan.roles, if_true,
          if_pos (show ([] : Key) ≤ b ∧ b < allKeysEnd from ‹_›)], rfl, .cons ⟨_, rfl⟩ .nil⟩
      · exact ⟨[.ended], _, by simp only [Plan.roles, if_true,
          if_neg (show ¬(([] : Key) ≤ b ∧ b < allKeysEnd) from ‹_›)], rfl, .cons rfl .nil⟩
    · simp only [Option.bind_eq_some, Option.some.injEq] at h
      obtain ⟨R, os, hR, hops, hF⟩ := execute_range_starts hb h
      exact ⟨R, os, by simp only [Plan.roles, if_neg ‹_›]; exact hR, hops, hF⟩
  | .primaryKeyLookup none e, cp, cp', root, _, hb, h | .primaryKeyLookup (some _) none, cp, cp', root, _, hb, h => by
    simp only [Plan.execute, Option.bind_eq_bind, Option.bind_eq_some, Option.pure_def,
      Option.some.injEq] at h
    exact execute_range_starts hb h
  | .filter source f, cp, cp', root, hP, hb, h => by
    simp only [Plan.execute, Option.bind_eq_bind, Option.bind_eq_some, Option.pure_def,
      Option.some.injEq] at h
    obtain ⟨a, h1, h⟩ := h
    obtain ⟨Rs, os, hR, hops, hF⟩ := source.execute_starts hP hb h1
    have hin : a.2 + 1 = cp.ops.length + Rs.length := by
      rw [(Plan.execute_shape source h1).2, hops, List.length_append, hF.length_eq]
    obtain ⟨rfl, -⟩ := Prod.ext_iff.1 h
    refine ⟨Rs ++ [.filter f (cp.ops.length + Rs.length - 1)],
      os ++ [⟨.headQueue (.filter f) ⟨a.2, [], false⟩, .empty⟩], by simp [Plan.roles, hR], by simp [hops],
      List.rel_append hF (.cons ?_ .nil)⟩
    rw [show a.2 = cp.ops.length + Rs.length - 1 by omega]
    rfl
  | .union plan1 plan2, cp, cp', root, hP, hb, h => by
    replace hP := Bool.and_eq_true_iff.1 hP
    simp only [Plan.execute, Option.bind_eq_bind, Option.bind_eq_some, Option.pure_def,
      Option.some.injEq] at h
    obtain ⟨a1, h1, a2, h2, h⟩ := h
    obtain ⟨Ra, osa, hRa, hopsa, hFa⟩ := plan1.execute_starts hP.1 hb h1
    obtain ⟨Rb, osb, hRb, hopsb, hFb⟩ := plan2.execute_starts hP.2
      (fun s => ((Plan.execute_shape plan1 h1).1.getBounds s).trans (hb s)) h2
    have hlen : a1.1.ops.length = cp.ops.length + Ra.length := by
      rw [hopsa, List.length_append, hFa.length_eq]
    have ia : a1.2 + 1 = cp.ops.length + Ra.length := (Plan.execute_shape plan1 h1).2.trans hlen
    have ib : a2.2 + 1 = cp.ops.length + Ra.length + Rb.length := by
      rw [(Plan.execute_shape plan2 h2).2, hopsb, List.length_append, hlen, hFb.length_eq]
    rw [hlen] at hRb
    obtain ⟨rfl, -⟩ := Prod.ext_iff.1 h
    refine ⟨Ra ++ Rb ++ [.union (cp.ops.length + Ra.length - 1) (cp.ops.length + Ra.length + Rb.length - 1)],
      osa ++ osb ++ [⟨.union ⟨a1.2, a2.2, true, true⟩, .empty⟩],
      by simp only [Plan.roles, Option.bind_eq_bind, hRa, Option.some_bind, hRb, Option.pure_def],
      by simp [hopsa, hopsb], List.rel_append (List.rel_append hFa hFb) (.cons ?_ .nil)⟩
    rw [show a1.2 = cp.ops.length + Ra.length - 1 by omega,
      show a2.2 = cp.ops.length + Ra.length + Rb.length - 1 by omega]
    rfl
  | .empty, cp, cp', root, _, _, h => by
    simp only [Plan.execute, Option.pure_def, Option.some.injEq] at h
    obtain ⟨rfl, -⟩ := Prod.ext_iff.1 h
    exact ⟨[.ended], _, rfl, rfl, .cons rfl .nil⟩
  | .indexScan _ _ _, _, _, _, hP, _, _ | .projection _, _, _, _, hP, _, _ | .skip _ _, _, _, _, hP, _, _
  | .update _ _ _, _, _, _, hP, _, _ | .flushChanges _, _, _, _, hP, _, _
  | .projectAndUpdate _ _ _, _, _, _, hP, _, _ | .buildIndex _, _, _, _, hP, _, _
  | .indexInsert _ _, _, _, _, hP, _, _ | .insert _, _, _, _, hP, _, _ => by cases hP

/-- **The network at the start**: the operations `execute` registered on a fresh checkpoint,
each at the start of its role, play their roles. -/
theorem Net.start {R : List Role} {os : List Op} {x : Exec} (hw : Wired R) (hx : x.cp.ops = os)
    (hF : List.Forall₂ Role.Starts R os) : Net env R x := by
  have hop : ∀ {k : Nat} {r : Role}, R[k]? = some r → ∃ o, x.op? k = some o ∧ r.Starts o := fun hr => by
    simpa only [Exec.op?, hx] using Role.starts_getElem? hF hr
  refine ⟨fun k hk => ?_, fun k r hr => ?_⟩
  · have : os.length ≤ k := hF.length_eq ▸ hk
    simp [Exec.actorAt, Exec.op?, hx, this]
  · obtain ⟨o, ho, hs⟩ := hop hr
    refine hs.roleRel ho fun j hj => ?_
    have hk := (List.getElem?_eq_some_iff.1 hr).1
    have hjk := hw.earlier k r hr j hj
    obtain ⟨oj, hoj, hsj⟩ := hop (List.getElem?_eq_getElem (show j < R.length by omega))
    exact .start hoj hsj.taken

/-- A fresh checkpoint's scans have the default bounds. -/
theorem PlanCheckpoint.getBounds_new (permits s : Nat) :
    (PlanCheckpoint.new permits).getBounds s = ([], allKeysEnd) := by
  simp [PlanCheckpoint.getBounds, PlanCheckpoint.new]

/-- **Every reachable state of a streaming plan executed on a fresh checkpoint keeps each
operation in the role `Plan.roles` gives it**, the plan's output being the last. -/
theorem Reachable.net {P : Plan} {permits : Nat} {x : Exec} {root : Nat} (hP : P.streaming = true)
    (hx : Reachable env P (PlanCheckpoint.new permits) x root) :
    ∃ R, P.roles env 0 = some R ∧ root + 1 = R.length ∧ Net env R x := by
  induction hx with
  | start hs =>
    obtain ⟨⟨cp', r⟩, hexec, he⟩ := Option.map_eq_some'.1 hs
    simp only [Prod.mk.injEq] at he
    obtain ⟨rfl, rfl⟩ := he
    obtain ⟨R, os, hR, hops, hF⟩ := P.execute_starts hP (PlanCheckpoint.getBounds_new permits) hexec
    have hroot := (Plan.execute_shape P hexec).2
    simp only [PlanCheckpoint.new, List.length_nil, List.nil_append] at hR hops
    exact ⟨R, hR, by rw [hroot, hops, hF.length_eq], Net.start (P.roles_subnet 0 hR).wired hops hF⟩
  | move c _ hm ih =>
    obtain ⟨R, hR, hroot, hnet⟩ := ih
    exact ⟨R, hR, hroot, hnet.move (P.roles_subnet 0 hR).wired hroot hm⟩

/-! ## The collection the plan reads -/

/-- **The executor's table is a DocLayer collection's**: its keys begin with their document's
encoded primary key (`PKEncoded`) and lie in `["\x00", "\xff")`, and every document has a key
at its primary key, the key `doSinglePKLookup`'s `get` reads. -/
structure Env.Stored (env : Env) : Prop where
  encoded : PKEncoded env
  within : ∀ t ∈ env.table, allKeysBegin ≤ t ∧ t < allKeysEnd
  roots : ∀ t ∈ env.table, env.firstItem t ∈ env.table

/-- **`v` is a key part as the primary keys are**: a primary key of the table that is a prefix
of `v`, or has `v` as a prefix, is `v`. The encoded key parts a lookup's bounds hold are. -/
def Env.PartLike (env : Env) (v : Key) : Prop :=
  ∀ t ∈ env.table, (env.firstItem t <+: v ∨ v <+: env.firstItem t) → env.firstItem t = v

instance (env : Env) (v : Key) : Decidable (env.PartLike v) :=
  inferInstanceAs (Decidable (∀ t ∈ env.table, (env.firstItem t <+: v ∨ v <+: env.firstItem t) → env.firstItem t = v))

/-- **Every primary-key lookup of a plan has key parts as bounds.** -/
def Plan.BoundsPartLike (env : Env) : Plan → Prop
  | .primaryKeyLookup b e => (∀ v ∈ b, env.PartLike v) ∧ ∀ v ∈ e, env.PartLike v
  | .filter source _ => source.BoundsPartLike env
  | .union plan1 plan2 => plan1.BoundsPartLike env ∧ plan2.BoundsPartLike env
  | _ => True

/-- **`C` describes the executor's collection**: its documents are the table's primary keys,
each once, and its predicates are the executor's on them. -/
structure Agrees (env : Env) (C : Collection) : Prop where
  stored : env.Stored
  docs_nodup : C.docs.Nodup
  mem_docs : ∀ p, p ∈ C.docs ↔ ∃ t ∈ env.table, env.firstItem t = p
  holds : ∀ f p, p ∈ C.docs → env.predicate f (.stored p) = C.holds f p

section Keys

variable {v t : Key}

/-- **A key part is at most a key exactly when it is at most the key's primary key.** -/
theorem Env.Stored.le_iff (hS : env.Stored) (hv : env.PartLike v) (ht : t ∈ env.table) :
    v ≤ t ↔ v ≤ env.firstItem t := by
  obtain ⟨r, hr⟩ := hS.encoded.begins t ht
  refine ⟨fun hvt => le_of_not_lt fun hlt => ?_, fun h => h.trans ((le_append _ r).trans_eq hr)⟩
  have hnp : ¬env.firstItem t <+: v := fun hp => ne_of_lt hlt (hv t ht (.inl hp))
  exact absurd hvt (not_le.2 (by simpa [hr] using append_lt_append_of_lt r [] hlt hnp))

/-- **A key lies below `strinc v` exactly when its primary key is at most the key part `v`.** -/
theorem Env.Stored.lt_strinc_iff (hS : env.Stored) (hv : env.PartLike v) {h : Key} (hs : strinc v = some h)
    (ht : t ∈ env.table) : t < h ↔ env.firstItem t ≤ v := by
  obtain ⟨r, hr⟩ := hS.encoded.begins t ht
  have hpt : env.firstItem t <+: t := ⟨r, hr⟩
  constructor
  · intro hth
    refine le_of_not_lt fun hlt => ?_
    have hvt : v <+: t := prefix_of_lt_strinc hs (hlt.le.trans ((le_append _ r).trans_eq hr)) hth
    rcases List.prefix_or_prefix_of_prefix hvt hpt with hp | hp
    · exact ne_of_lt hlt (hv t ht (.inr hp)).symm
    · exact ne_of_lt hlt (hv t ht (.inl hp)).symm
  · intro hle
    by_cases hp : env.firstItem t <+: v
    · exact lt_strinc_of_prefix hs (hv t ht (.inl hp) ▸ hpt)
    · have hlt : env.firstItem t < v := lt_of_le_of_ne hle fun he => hp (he ▸ List.prefix_refl _)
      calc t = env.firstItem t ++ r := hr.symm
        _ < v ++ [] := append_lt_append_of_lt r [] hlt hp
        _ < h := by simpa using lt_strinc_of_prefix hs (List.prefix_refl v)

/-- **A table key lies in a lookup's range read exactly when its primary key lies in the
lookup's range**: the bounds being key parts, `[begin, strinc(end))` splits the keys between
documents, and the default bounds cut none. -/
theorem Env.Stored.mem_range_iff (hS : env.Stored) {b e : Option Key} {lo hi : Key}
    (hr : scanRange b e ([], allKeysEnd) = some (lo, hi)) (hb : ∀ v ∈ b, env.PartLike v)
    (he : ∀ v ∈ e, env.PartLike v) (ht : t ∈ env.table) :
    (lo ≤ t ∧ t < hi) ↔ inRange b e (env.firstItem t) = true := by
  obtain ⟨h0, h1⟩ := hS.within t ht
  have hlo : b.getD allKeysBegin ⊔ [] ≤ t ↔ (b.all fun v => decide (v ≤ env.firstItem t)) = true := by
    rw [max_eq_left List.nil_le]
    cases b with
    | none => simpa using h0
    | some v => simpa using hS.le_iff (hb v rfl) ht
  have key : ∀ {h : Key}, (t < h ↔ (e.all fun v => decide (env.firstItem t ≤ v)) = true) →
      (b.getD allKeysBegin ⊔ [] ≤ t ∧ t < b.getD allKeysBegin ⊔ [] ⊔ h ⊓ allKeysEnd ↔
        inRange b e (env.firstItem t) = true) := fun hh => by
    simp only [inRange, Bool.and_eq_true, ← hlo, ← hh]
    exact ⟨fun ⟨hl, h'⟩ => ⟨hl, lt_of_lt_of_le (lt_of_le_of_lt_max hl h') (min_le_left _ _)⟩,
      fun ⟨hl, h'⟩ => ⟨hl, lt_max_of_lt_right (lt_min h' h1)⟩⟩
  cases e with
  | none =>
    simp only [scanRange, Option.pure_def, Option.bind_eq_bind, Option.some_bind, Option.some.injEq,
      Prod.mk.injEq] at hr
    obtain ⟨rfl, rfl⟩ := hr
    exact key (by simpa using h1)
  | some v =>
    simp only [scanRange, Option.pure_def, Option.bind_eq_bind, Option.bind_eq_some, Option.some.injEq,
      Prod.mk.injEq] at hr
    obtain ⟨h, hs, rfl, rfl⟩ := hr
    exact key (by simpa using hS.lt_strinc_iff (he v rfl) hs ht)

end Keys

/-! ## What each operation owes, as `Plan.emits` says -/

section Owed

variable {C : Collection} {x : Exec} {k : Nat} {D D' : List DocRef}

/-- What an operation owes is read up to order. -/
theorem Produces.perm (h : Produces x k D) (hp : D.Perm D') : Produces x k D' := by
  obtain ⟨ds, tail, hl, htail, hsub, hend⟩ := h
  exact ⟨ds, tail, hl, htail, hsub.trans hp.subperm, fun h => (hend h).trans hp⟩

theorem newPKs_sublist {f : Key → Key} : ∀ (p : Key) (ks : List Key), (newPKs f p ks).Sublist ks
  | _, [] => .slnil
  | p, k :: ks => by
    unfold newPKs
    split
    · exact (newPKs_sublist _ ks).cons₂ k
    · exact (newPKs_sublist _ ks).cons k

/-- **A scan over keys with primary keys owes one document per primary key among them.** -/
theorem mem_scanRefs {ks : List Key} (hne : ∀ t ∈ ks, env.firstItem t ≠ []) {d : DocRef} :
    d ∈ scanRefs env ks ↔ ∃ t ∈ ks, d = .stored (env.firstItem t) := by
  simp only [scanRefs, List.mem_map]
  constructor
  · rintro ⟨t, ht, rfl⟩
    exact ⟨t, (newPKs_sublist [] ks).subset ht, rfl⟩
  · rintro ⟨t, ht, rfl⟩
    rcases firstItem_mem_newPKs (f := env.firstItem) (p := []) ht with h | ⟨t', ht', he⟩
    · exact absurd h (hne t ht)
    · exact ⟨t', ht', by rw [he]⟩

/-- A range scan of an encoded collection owes no document twice. -/
theorem scanRefs_nodup (henc : PKEncoded env) {lo hi : Key} :
    (scanRefs env (getDescendants env.table lo hi)).Nodup := by
  rw [← map_pkDoc_doc 0, ← pkScanDocs_eq_newPKs 0 fun t ht => henc.ne_nil t (mem_table_of_mem_getDescendants ht)]
  exact pkScanDocs_nodup henc

/-- **A range scan owes the documents the lookup's range emits**, each once. -/
theorem Agrees.scanRefs_perm (hC : Agrees env C) {b e : Option Key} {lo hi : Key}
    (hr : scanRange b e ([], allKeysEnd) = some (lo, hi)) (hb : ∀ v ∈ b, env.PartLike v)
    (he : ∀ v ∈ e, env.PartLike v) :
    (scanRefs env (getDescendants env.table lo hi)).Perm ((C.docs.filter (inRange b e)).map .stored) := by
  have hne : ∀ t ∈ getDescendants env.table lo hi, env.firstItem t ≠ [] :=
    fun t ht => hC.stored.encoded.ne_nil t (mem_table_of_mem_getDescendants ht)
  refine (List.perm_ext_iff_of_nodup (scanRefs_nodup hC.stored.encoded)
    ((hC.docs_nodup.filter _).map fun _ _ => DocRef.stored.inj)).2 fun d => ?_
  rw [mem_scanRefs hne]
  simp only [getDescendants, List.mem_map, List.mem_filter, decide_eq_true_eq]
  constructor
  · rintro ⟨t, ⟨ht, hin⟩, rfl⟩
    exact ⟨env.firstItem t, ⟨(hC.mem_docs _).2 ⟨t, ht, rfl⟩, (hC.stored.mem_range_iff hr hb he ht).1 hin⟩, rfl⟩
  · rintro ⟨p, ⟨hp, hin⟩, rfl⟩
    obtain ⟨t, ht, rfl⟩ := (hC.mem_docs p).1 hp
    exact ⟨t, ⟨ht, (hC.stored.mem_range_iff hr hb he ht).2 hin⟩, rfl⟩

/-- **A document's primary key `v`, a key part, is stored exactly when it is a document.** -/
theorem Agrees.mem_docs_iff (hC : Agrees env C) {v : Key} (hv : env.PartLike v) : v ∈ C.docs ↔ v ∈ env.table := by
  rw [hC.mem_docs]
  refine ⟨fun ⟨t, ht, he⟩ => he ▸ hC.stored.roots t ht, fun ht => ⟨v, ht, ?_⟩⟩
  exact hv v ht (.inl (hC.stored.encoded.begins v ht))

/-- **What `Plan.emits` gives for `[v, v]`**: the document `v`, when it is stored. -/
theorem Agrees.mem_point_iff (hC : Agrees env C) {v : Key} (hv : env.PartLike v) {d : DocRef} :
    d ∈ (C.docs.filter (inRange (some v) (some v))).map .stored ↔
      d = .stored v ∧ v ∈ env.table ∧ v < allKeysEnd := by
  simp only [List.mem_map, List.mem_filter, inRange_some_left, Option.all_some, Bool.and_eq_true,
    decide_eq_true_eq]
  constructor
  · rintro ⟨p, ⟨hp, h1, h2⟩, rfl⟩
    obtain rfl := le_antisymm h2 h1
    obtain ⟨t, ht, rfl⟩ := (hC.mem_docs _).1 hp
    refine ⟨rfl, (hC.mem_docs_iff hv).1 hp, ?_⟩
    obtain ⟨r, hr⟩ := hC.stored.encoded.begins t ht
    exact lt_of_le_of_lt ((le_append _ r).trans_eq hr) (hC.stored.within t ht).2
  · rintro ⟨rfl, ht, -⟩
    exact ⟨v, ⟨(hC.mem_docs_iff hv).2 ht, le_rfl, le_rfl⟩, rfl⟩

/-- **A filter's documents are those of its source that satisfy the predicate**, as the
collection evaluates it. -/
theorem Agrees.filter_map_stored (hC : Agrees env C) {ps : List Key} (hps : ∀ p ∈ ps, p ∈ C.docs)
    (f : Predicate) : (ps.map DocRef.stored).filter (env.predicate f) = (ps.filter (C.holds f)).map .stored := by
  rw [List.filter_map]
  congr 1
  exact List.filter_congr fun p hp => hC.holds f p (hps p hp)

/-- A streaming plan emits documents of the collection. -/
theorem Plan.emits_subset_docs (C : Collection) : ∀ {P : Plan}, P.streaming = true → ∀ p ∈ P.emits C, p ∈ C.docs
  | .tableScan, _, _, hp => hp
  | .primaryKeyLookup _ _, _, _, hp => (List.mem_filter.1 hp).1
  | .empty, _, _, hp => absurd hp (List.not_mem_nil _)
  | .filter source _, hP, p, hp => Plan.emits_subset_docs C (P := source) hP p (List.mem_filter.1 hp).1
  | .union _ _, hP, p, hp => by
    replace hP := Bool.and_eq_true_iff.1 hP
    rcases List.mem_append.1 hp with hp | hp
    exacts [Plan.emits_subset_docs C hP.1 p hp, Plan.emits_subset_docs C hP.2 p hp]
  | .indexScan _ _ _, hP, _, _ | .projection _, hP, _, _ | .skip _ _, hP, _, _ | .update _ _ _, hP, _, _
  | .flushChanges _, hP, _, _ | .projectAndUpdate _ _ _, hP, _, _ | .buildIndex _, hP, _, _
  | .indexInsert _ _, hP, _, _ | .insert _, hP, _, _ => by cases hP

end Owed

/-! ## Every run emits what `Plan.emits` says -/

section Emits

variable {C : Collection} {x : Exec} {Rall : List Role}

theorem getElem?_append_of_getElem? {R R' : List Role} {i : Nat} {r : Role} (h : R[i]? = some r) :
    (R ++ R')[i]? = some r := by
  rw [List.getElem?_append_left (List.getElem?_eq_some_iff.1 h).1, h]

theorem getElem?_append_length_add (R R' : List Role) (i : Nat) : (R ++ R')[R.length + i]? = R'[i]? := by
  rw [List.getElem?_append_right (Nat.le_add_right _ _), Nat.add_sub_cancel_left]

/-- A range scan's output owes the documents of its range, as `Plan.emits` gives them. -/
theorem Net.produces_range (hC : Agrees env C) (hnet : Net env Rall x) {n : Nat} {b e : Option Key}
    {r : Key × Key} (hr : scanRange b e ([], allKeysEnd) = some r) (hat : Rall[n]? = some (rangeRole env r))
    (hb : ∀ v ∈ b, env.PartLike v) (he : ∀ v ∈ e, env.PartLike v) :
    Produces x n ((C.docs.filter (inRange b e)).map .stored) :=
  (hnet.rel n _ hat).produces_scan.perm (hC.scanRefs_perm hr hb he)

/-- **What the output of each subplan owes is what `Plan.emits` gives it**, by induction on the
plan: a scan's and a lookup's from the order of keys, a filter's and a union's from what their
inputs owe. `R` are the subplan's roles, registered from index `n` among the plan's `Rall`. -/
theorem Plan.produces_emits (hC : Agrees env C) (hnet : Net env Rall x) :
    ∀ (P : Plan) (n : Nat) {R : List Role}, P.streaming = true → P.BoundsPartLike env →
      P.roles env n = some R → (∀ (i : Nat) (r : Role), R[i]? = some r → Rall[n + i]? = some r) →
      Produces x (n + R.length - 1) ((P.emits C).map .stored)
  | .tableScan, n, R, _, _, h, hat => by
    obtain ⟨r, hr, rfl⟩ := Option.map_eq_some'.1 h
    have hall : C.docs.filter (inRange none none) = C.docs := List.filter_eq_self.2 fun _ _ => rfl
    simpa [hall] using hnet.produces_range hC hr (by simpa using hat 0 _ rfl) (by simp) (by simp)
  | .primaryKeyLookup (some b) (some e), n, R, _, ⟨hb, he⟩, h, hat => by
    simp only [Plan.roles] at h
    split at h
    · subst e
      cases h
      have hrole := hnet.rel n _ (by simpa using hat 0 _ rfl)
      simp only [List.length_singleton, Nat.add_sub_cancel, Plan.emits_primaryKeyLookup]
      have hnodup : ((C.docs.filter (inRange (some b) (some b))).map DocRef.stored).Nodup :=
        (hC.docs_nodup.filter _).map fun _ _ => DocRef.stored.inj
      split at hrole
      · refine hrole.produces_lookup.perm ((List.perm_ext_iff_of_nodup (by split <;> simp) hnodup).2 fun d => ?_)
        rw [hC.mem_point_iff (hb b rfl)]
        split <;> simp_all
      · rename_i hout
        have hnil : (C.docs.filter (inRange (some b) (some b))).map DocRef.stored = [] :=
          List.eq_nil_iff_forall_not_mem.2 fun d hd => hout ((hC.mem_point_iff (hb b rfl)).1 hd).2.2
        exact hnil ▸ hrole.produces_ended
    · obtain ⟨r, hr, rfl⟩ := Option.map_eq_some'.1 h
      simpa using hnet.produces_range hC hr (by simpa using hat 0 _ rfl) hb he
  | .primaryKeyLookup none e, n, R, _, ⟨hb, he⟩, h, hat | .primaryKeyLookup (some _) none, n, R, _, ⟨hb, he⟩, h, hat => by
    obtain ⟨r, hr, rfl⟩ := Option.map_eq_some'.1 h
    simpa using hnet.produces_range hC hr (by simpa using hat 0 _ rfl) hb he
  | .empty, n, R, _, _, h, hat => by
    cases h
    simpa using (hnet.rel n _ (by simpa using hat 0 _ rfl)).produces_ended
  | .filter source f, n, R, hP, hB, h, hat => by
    obtain ⟨Rs, hs, rfl⟩ := Option.map_eq_some'.1 h
    have hpos := (source.roles_subnet n hs).length_pos
    have ih := Plan.produces_emits hC hnet source n hP hB hs fun i r hr => hat i r (getElem?_append_of_getElem? hr)
    have hrole := hnet.rel (n + Rs.length) (.filter f (n + Rs.length - 1))
      (by simpa using hat Rs.length _ (List.getElem?_concat_length _ _))
    rw [show n + (Rs ++ [Role.filter f (n + Rs.length - 1)]).length - 1 = n + Rs.length by simp,
      Plan.emits_filter, ← hC.filter_map_stored (Plan.emits_subset_docs C (P := source) hP)]
    exact hrole.produces_filter ih
  | .union plan1 plan2, n, R, hP, ⟨hB1, hB2⟩, h, hat => by
    replace hP := Bool.and_eq_true_iff.1 hP
    simp only [Plan.roles, Option.bind_eq_bind, Option.bind_eq_some, Option.pure_def, Option.some.injEq] at h
    obtain ⟨Ra, ha, Rb, hb, rfl⟩ := h
    have hpa := (plan1.roles_subnet n ha).length_pos
    have hpb := (plan2.roles_subnet _ hb).length_pos
    have iha := Plan.produces_emits hC hnet plan1 n hP.1 hB1 ha fun i r hr =>
      hat i r (getElem?_append_of_getElem? (getElem?_append_of_getElem? hr))
    have ihb := Plan.produces_emits hC hnet plan2 (n + Ra.length) hP.2 hB2 hb fun i r hr => by
      simpa [Nat.add_assoc] using hat (Ra.length + i) r
        (getElem?_append_of_getElem? (by rwa [getElem?_append_length_add]))
    have hrole := hnet.rel (n + Ra.length + Rb.length) (.union (n + Ra.length - 1) (n + Ra.length + Rb.length - 1))
      (by simpa [Nat.add_assoc] using hat (Ra ++ Rb).length _ (List.getElem?_concat_length _ _))
    rw [show n + (Ra ++ Rb ++ [Role.union (n + Ra.length - 1) (n + Ra.length + Rb.length - 1)]).length - 1 =
      n + Ra.length + Rb.length by simp; omega, Plan.emits_union, List.map_append]
    exact hrole.produces_union iha ihb
  | .indexScan _ _ _, _, _, hP, _, _, _ | .projection _, _, _, hP, _, _, _ | .skip _ _, _, _, hP, _, _, _
  | .update _ _ _, _, _, hP, _, _, _ | .flushChanges _, _, _, hP, _, _, _
  | .projectAndUpdate _ _ _, _, _, hP, _, _, _ | .buildIndex _, _, _, hP, _, _, _
  | .indexInsert _ _, _, _, hP, _, _, _ | .insert _, _, _, hP, _, _, _ => by cases hP

/-- **The streaming plans emit what `Plan.emits` says.** Execute a plan of table scans,
primary-key lookups with key parts as bounds, filters, unions and `EmptyPlan` on a fresh
checkpoint, over a collection that `C` describes. In every state of every run, whatever order
its moves take, the plan's output has sent documents, then at most one error; the documents
name a sub-multiset of the primary keys `Plan.emits` gives, and all of them, each as often, once
the error is `end_of_stream`. -/
theorem streaming_plan_emits (hC : Agrees env C) {P : Plan} (hP : P.streaming = true)
    (hB : P.BoundsPartLike env) {permits root : Nat} (hx : Reachable env P (PlanCheckpoint.new permits) x root) :
    ∃ (ds : List ScanReturned) (tail : List Msg), x.sentAt root = some (ds.map .doc ++ tail) ∧
      (tail = [] ∨ ∃ e, tail = [.error e]) ∧
      (ds.map ScanReturned.doc).Subperm ((P.emits C).map .stored) ∧
      (tail = [.error .endOfStream] → (ds.map ScanReturned.doc).Perm ((P.emits C).map .stored)) := by
  obtain ⟨R, hR, hroot, hnet⟩ := hx.net hP
  have h := P.produces_emits hC hnet 0 hP hB hR fun i r hr => by simpa using hr
  rwa [show 0 + R.length - 1 = root by omega] at h

/-- A collection of two documents, `[1]` and `[2]`, each with a key at its primary key and one
key more; the primary key is the first byte, and the predicate leaf `0` holds of `[2]` alone. -/
def twoRootedDocs : Collection :=
  ⟨[[1], [2]], fun _ _ => [], fun _ k => decide (k = [2]), fun _ _ => [], fun _ => []⟩

/-- The executor's table of `twoRootedDocs`, evaluating its predicates. -/
def twoRootedEnv : Env :=
  ⟨[[1], [1, 1], [2], [2, 5]], fun _ => [], fun k => k.take 1, id,
    fun f d => match d with | .stored k => twoRootedDocs.holds f k | .inserted _ => true,
    fun _ _ => [], [], by decide, fun _ => List.sorted_nil⟩

theorem twoRootedEnv_agrees : Agrees twoRootedEnv twoRootedDocs :=
  ⟨⟨⟨by decide, fun k _ => List.take_prefix 1 k, by decide⟩, by decide, by decide⟩, by decide,
    fun p => by simp [twoRootedEnv, twoRootedDocs, eq_comm], fun _ _ _ => rfl⟩

/-- `FilterPlan(UnionPlan(TableScanPlan, PrimaryKeyLookupPlan([1], [1])), leaf 0)`. -/
def unionLookupPlan : Plan := .filter (.union .tableScan (.primaryKeyLookup (some [1]) (some [1]))) (.leaf 0)

/-- A run of `unionLookupPlan` to its end: the table scan, the lookup, the union and the
filter in turn, then the consumer taking the output. -/
def unionLookupMoves : List Choice :=
  [.step 0 .input, .step 0 .complete, .step 0 .input, .step 0 .input, .step 0 .complete, .step 0 .input,
    .step 0 .input, .step 1 .complete, .step 1 .complete, .step 2 .input, .step 2 .input, .step 2 .input,
    .step 2 .inputB, .step 2 .inputB, .step 3 .input, .step 3 .input, .step 3 .input, .step 3 .input,
    .step 3 .complete, .step 3 .complete, .step 3 .complete, .consume, .consume]

/-- **A filtered union of a table scan and a lookup** runs to the document `[2]`, then
`end_of_stream`: the one primary key `Plan.emits` gives. -/
theorem unionLookup_filter_emits :
    Agrees twoRootedEnv twoRootedDocs ∧ unionLookupPlan.streaming = true ∧
      unionLookupPlan.BoundsPartLike twoRootedEnv ∧ unionLookupPlan.emits twoRootedDocs = [[2]] ∧
      ∃ x0 y, Exec.start twoRootedEnv unionLookupPlan (PlanCheckpoint.new 10) = some (x0, 3) ∧
        Exec.run twoRootedEnv 3 x0 unionLookupMoves = some y ∧
        y.sentAt 3 = some [.doc ⟨.stored [2], 0, [2]⟩, .error .endOfStream] ∧
        ∃ (ds : List ScanReturned) (tail : List Msg), y.sentAt 3 = some (ds.map .doc ++ tail) ∧
          (tail = [] ∨ ∃ e, tail = [.error e]) ∧
          (ds.map ScanReturned.doc).Subperm ((unionLookupPlan.emits twoRootedDocs).map .stored) ∧
          (tail = [.error .endOfStream] →
            (ds.map ScanReturned.doc).Perm ((unionLookupPlan.emits twoRootedDocs).map .stored)) :=
  have hB : unionLookupPlan.BoundsPartLike twoRootedEnv :=
    ⟨trivial, fun v hv => by cases hv; decide, fun v hv => by cases hv; decide⟩
  ⟨twoRootedEnv_agrees, rfl, hB, by decide, _, _, rfl, rfl, rfl,
    @streaming_plan_emits twoRootedEnv twoRootedDocs _ twoRootedEnv_agrees unionLookupPlan rfl hB 10 3
      (@Reachable.run twoRootedEnv unionLookupPlan _ 3 _ _ unionLookupMoves (.start rfl) rfl)⟩

end Emits

end DocLayer
