import DocLayer.Plan

/-! # Predicate pushdown

`FilterPlan::construct_filter_plan(cx, source, filter)` asks the source plan to absorb the
filter (`push_down`) and keeps the filter only when it cannot. `TableScanPlan::push_down`
turns a range on `_id` into a primary-key lookup and a range on an indexed path into an index
scan, rewrites an `OR` into a union of disjoint pushes, pushes the first pushable term of an
`AND` and filters by the others, and turns `NONE` into the empty plan;
`IndexScanPlan::push_down` refines a scan of one key by a compound index;
`FilterPlan::push_down` merges two filters.

The recursion is not structural: the `OR` case pushes a predicate it builds,
`AND(OR(rest), NOT(last))`, after `simplify()`. The model runs the rewriter on fuel.

* **`Planner`** — what `push_down` reads besides the plan and the predicate: `simplify`,
  `get_range`, `range_is_tight`, the collection's index lookups and the string encoding of a
  path. None of them is in the source.
* **`pushDown`, `constructFilterPlan`** — the rewriter; `none` when it returns no plan.
* **`pushDown_mono`** — fuel only bounds the recursion: more fuel gives the same answer. -/

namespace DocLayer

/-- **What the rewriter reads besides the plan and the predicate**: `IPredicate::simplify()`,
`get_range()` (the encoded bounds of the values a predicate admits) and `range_is_tight()`;
`getSimpleIndex` and `getCompoundIndex` of the collection context; and
`DataValue(s, DVTypeCode::STRING).encode_key_part()`, which the rewriter applies to index keys.
-/
structure Planner where
  simplify : Predicate → Predicate
  getRange : Predicate → Option Key × Option Key
  rangeIsTight : Predicate → Bool
  getSimpleIndex : Key → Option IndexInfo
  getCompoundIndex : IndexInfo → Key → Option IndexInfo
  stringKeyPart : Key → Key

/-- The path `_id`. -/
def idPath : Key := [95, 105, 100]

/-- Modelled from its documented behaviour ("an index scan with a single fixed prefix"): `QLPlan.h`, which
defines `IndexScanPlan::single_key()`, is not in the source. The scan's bounds are one key. -/
def singleKey (begin end_ : Option Key) : Bool := begin.isSome && begin == end_

theorem singleKey_iff {begin end_ : Option Key} :
    singleKey begin end_ = true ↔ ∃ v, begin = some v ∧ end_ = some v := by
  cases begin <;> cases end_ <;> simp [singleKey]
  exact eq_comm

/-- What one call of `push_down` returns when it returns: a plan, or no push (`some none`). -/
abbrev Pushed := Option (Option Plan)

variable (P : Planner)

/-- **`FilterPlan::construct_filter_plan(cx, source, filter)`**, given `push_down`: the source
itself under `ALL`, else its push, else the filter over it. -/
def constructFilterPlanWith (push : Plan → Predicate → Pushed) (source : Plan) (filter : Predicate) :
    Option Plan :=
  match filter with
  | .all => some source
  | _ => (push source filter).map fun pd => pd.getD (.filter source filter)

@[simp] theorem constructFilterPlanWith_all (push : Plan → Predicate → Pushed) (source : Plan) :
    constructFilterPlanWith push source .all = some source := rfl

theorem constructFilterPlanWith_of_ne_all (push : Plan → Predicate → Pushed) (source : Plan)
    {filter : Predicate} (h : filter ≠ .all) :
    constructFilterPlanWith push source filter = (push source filter).map fun pd => pd.getD (.filter source filter) := by
  cases filter <;> first | exact absurd rfl h | rfl

/-- **The `AND` case of both `push_down`s**: the first term (after the terms `pre` that could
not be pushed) whose push succeeds, filtered by the other terms' simplified `AND`. -/
def pushFirstTerm (push : Predicate → Pushed) (cfp : Plan → Predicate → Option Plan)
    (pre : List Predicate) : List Predicate → Pushed
  | [] => some none
  | t :: post =>
    (push t).bind fun
      | some pd => (cfp pd (P.simplify (.and (pre ++ post)))).map some
      | none => pushFirstTerm push cfp (pre ++ [t]) post

/-- **A range pushed into a scan**: the scan alone when the range is tight, else the scan
filtered by the query. -/
def pushRange (cfp : Plan → Predicate → Option Plan) (scan : Plan) (pred query : Predicate) : Pushed :=
  if P.rangeIsTight pred then some (some scan) else (cfp scan query).map some

/-- **`TableScanPlan::push_down`**, given `push`, its call on this scan, and `cfp`,
`construct_filter_plan`. `terms.back()` of an `OR` with no terms is undefined: the model
returns no plan. -/
def tableScanPushDown (push : Predicate → Pushed) (cfp : Plan → Predicate → Option Plan) :
    Predicate → Pushed
  | .any expr pred =>
    let r := P.getRange pred
    if expr.getIndexKey = P.stringKeyPart idPath then
      if r.1.isSome || r.2.isSome then pushRange P cfp (.primaryKeyLookup r.1 r.2) pred (.any expr pred)
      else some none
    else
      match P.getSimpleIndex (P.stringKeyPart expr.getIndexKey) with
      | some index =>
        if r.1.isSome || r.2.isSome then pushRange P cfp (.indexScan index r.1 r.2) pred (.any expr pred)
        else some none
      | none => some none
  | .or terms =>
    match terms.getLast? with
    | none => none
    | some last =>
      (push last).bind fun
        | none => some none
        | some lastPlan =>
          (push (P.simplify (.and [.or terms.dropLast, .not last]))).map fun
            | some pd => some (.union pd lastPlan)
            | none => none
  | .and terms => pushFirstTerm P push cfp [] terms
  | .none => some (some .empty)
  | _ => some none

/-- **`IndexScanPlan::push_down`** of the scan of `index` over `[begin, end_]`: only a scan of
one key is refined, by the compound index extending `index` with the path of an `ANY`, the
range's bounds (`"\x00"` and `"\xff"` when absent) appended to the key. -/
def indexScanPushDown (index : IndexInfo) (begin end_ : Option Key) (push : Predicate → Pushed)
    (cfp : Plan → Predicate → Option Plan) (q : Predicate) : Pushed :=
  if singleKey begin end_ then
    match q with
    | .any expr pred =>
      match P.getCompoundIndex index (P.stringKeyPart expr.getIndexKey) with
      | some cidx =>
        let r := P.getRange pred
        if r.1.isSome || r.2.isSome then
          pushRange P cfp (.indexScan cidx (begin.map (· ++ r.1.getD allKeysBegin))
            (end_.map (· ++ r.2.getD allKeysEnd))) pred q
        else some none
      | none => some none
    | .and terms => pushFirstTerm P push cfp [] terms
    | _ => some none
  else some none

/-- **`push_down`**, its recursion bounded by `fuel`. `FilterPlan::push_down` merges the
filters into one simplified `AND`; every other operator pushes nothing (modelled from the
spec: `Plan::push_down` is declared in `QLPlan.h`). -/
def pushDown : Nat → Plan → Predicate → Pushed
  | 0, _, _ => none
  | n + 1, p, q =>
    match p with
    | .tableScan => tableScanPushDown P (pushDown n .tableScan) (constructFilterPlanWith (pushDown n)) q
    | .indexScan index b e =>
      indexScanPushDown P index b e (pushDown n (.indexScan index b e)) (constructFilterPlanWith (pushDown n)) q
    | .filter source filter => some (some (.filter source (P.simplify (.and [filter, q]))))
    | _ => some none

/-- **`FilterPlan::construct_filter_plan(cx, source, filter)`**, on `fuel`. -/
def constructFilterPlan (fuel : Nat) : Plan → Predicate → Option Plan :=
  constructFilterPlanWith (pushDown P fuel)

/-! ### Fuel only bounds the recursion -/

section Mono

variable {P}

theorem constructFilterPlanWith_mono {push push' : Plan → Predicate → Pushed}
    (h : ∀ p q r, push p q = some r → push' p q = some r) {source : Plan} {filter : Predicate}
    {r : Plan} (hr : constructFilterPlanWith push source filter = some r) :
    constructFilterPlanWith push' source filter = some r := by
  cases filter <;> simp only [constructFilterPlanWith] at hr ⊢ <;>
    first
    | exact hr
    | (obtain ⟨pd, hpd, rfl⟩ := Option.map_eq_some'.1 hr
       rw [h _ _ _ hpd, Option.map_some'])

theorem pushRange_mono {cfp cfp' : Plan → Predicate → Option Plan}
    (hc : ∀ p q r, cfp p q = some r → cfp' p q = some r) {scan : Plan} {pred query : Predicate}
    {r : Option Plan} (hr : pushRange P cfp scan pred query = some r) :
    pushRange P cfp' scan pred query = some r := by
  unfold pushRange at hr ⊢
  by_cases ht : P.rangeIsTight pred = true
  · simpa only [ht, if_true] using hr
  · simp only [ht, if_false, Bool.false_eq_true] at hr ⊢
    obtain ⟨pd, hpd, rfl⟩ := Option.map_eq_some'.1 hr
    rw [hc _ _ _ hpd, Option.map_some']

theorem pushFirstTerm_mono {push push' : Predicate → Pushed} {cfp cfp' : Plan → Predicate → Option Plan}
    (hp : ∀ q r, push q = some r → push' q = some r) (hc : ∀ p q r, cfp p q = some r → cfp' p q = some r) :
    ∀ (terms pre : List Predicate) {r : Option Plan}, pushFirstTerm P push cfp pre terms = some r →
      pushFirstTerm P push' cfp' pre terms = some r
  | [], _, _, hr => hr
  | t :: post, pre, r, hr => by
    simp only [pushFirstTerm] at hr ⊢
    obtain ⟨pt, hpt, hr⟩ := Option.bind_eq_some.1 hr
    rw [hp _ _ hpt, Option.some_bind]
    cases pt with
    | none => exact pushFirstTerm_mono hp hc post _ hr
    | some pd =>
      obtain ⟨f, hf, rfl⟩ := Option.map_eq_some'.1 hr
      simp only [hc _ _ _ hf, Option.map_some']

/-- `pushRange` unless the range is empty. -/
theorem ite_pushRange_mono {cfp cfp' : Plan → Predicate → Option Plan}
    (hc : ∀ p q r, cfp p q = some r → cfp' p q = some r) {c : Bool} {scan : Plan}
    {pred query : Predicate} {r : Option Plan}
    (hr : (if c = true then pushRange P cfp scan pred query else some none) = some r) :
    (if c = true then pushRange P cfp' scan pred query else some none) = some r := by
  split at hr
  · rw [if_pos ‹_›]; exact pushRange_mono hc hr
  · rw [if_neg ‹_›]; exact hr

theorem tableScanPushDown_mono {push push' : Predicate → Pushed} {cfp cfp' : Plan → Predicate → Option Plan}
    (hp : ∀ q r, push q = some r → push' q = some r) (hc : ∀ p q r, cfp p q = some r → cfp' p q = some r)
    {q : Predicate} {r : Option Plan} (hr : tableScanPushDown P push cfp q = some r) :
    tableScanPushDown P push' cfp' q = some r := by
  cases q with
  | any expr pred =>
    simp only [tableScanPushDown] at hr ⊢
    by_cases hid : expr.getIndexKey = P.stringKeyPart idPath
    · simp only [hid, if_true] at hr ⊢
      exact ite_pushRange_mono hc hr
    · simp only [hid, if_false] at hr ⊢
      cases hI : P.getSimpleIndex (P.stringKeyPart expr.getIndexKey) with
      | none => simpa only [hI] using hr
      | some index =>
        simp only [hI] at hr ⊢
        exact ite_pushRange_mono hc hr
  | or terms =>
    simp only [tableScanPushDown] at hr ⊢
    cases hl : terms.getLast? with
    | none => simp only [hl, reduceCtorEq] at hr
    | some last =>
      simp only [hl] at hr ⊢
      obtain ⟨pl, hpl, hr⟩ := Option.bind_eq_some.1 hr
      rw [hp _ _ hpl, Option.some_bind]
      cases pl with
      | none => exact hr
      | some lastPlan =>
        obtain ⟨pd, hpd, rfl⟩ := Option.map_eq_some'.1 hr
        simp only [hp _ _ hpd, Option.map_some']
  | and terms => exact pushFirstTerm_mono hp hc terms [] hr
  | all | none | not | leaf => exact hr

theorem indexScanPushDown_mono {index : IndexInfo} {b e : Option Key} {push push' : Predicate → Pushed}
    {cfp cfp' : Plan → Predicate → Option Plan}
    (hp : ∀ q r, push q = some r → push' q = some r) (hc : ∀ p q r, cfp p q = some r → cfp' p q = some r)
    {q : Predicate} {r : Option Plan} (hr : indexScanPushDown P index b e push cfp q = some r) :
    indexScanPushDown P index b e push' cfp' q = some r := by
  unfold indexScanPushDown at hr ⊢
  by_cases hs : singleKey b e = true
  · simp only [hs, if_true] at hr ⊢
    cases q with
    | any expr pred =>
      simp only at hr ⊢
      cases hJ : P.getCompoundIndex index (P.stringKeyPart expr.getIndexKey) with
      | none => simpa only [hJ] using hr
      | some cidx =>
        simp only [hJ] at hr ⊢
        exact ite_pushRange_mono hc hr
    | and terms => exact pushFirstTerm_mono hp hc terms [] hr
    | all | none | or | not | leaf => exact hr
  · simpa only [hs, if_false, Bool.false_eq_true] using hr

/-- **One more unit of fuel gives the same answer.** -/
theorem pushDown_succ : ∀ {n : Nat} {p : Plan} {q : Predicate} {r : Option Plan},
    pushDown P n p q = some r → pushDown P (n + 1) p q = some r
  | 0, _, _, _, h => by cases h
  | n + 1, p, q, r, h => by
    have hp : ∀ p q r, pushDown P n p q = some r → pushDown P (n + 1) p q = some r :=
      fun _ _ _ => pushDown_succ
    have hc : ∀ s f r, constructFilterPlanWith (pushDown P n) s f = some r →
        constructFilterPlanWith (pushDown P (n + 1)) s f = some r :=
      fun _ _ _ => constructFilterPlanWith_mono hp
    cases p with
    | tableScan => exact tableScanPushDown_mono (hp _) hc h
    | indexScan index b e => exact indexScanPushDown_mono (hp _) hc h
    | _ => exact h

/-- **Fuel only bounds the recursion**: an answer on `n` is the answer on any more fuel. -/
theorem pushDown_mono {n m : Nat} (hnm : n ≤ m) {p : Plan} {q : Predicate} {r : Option Plan}
    (h : pushDown P n p q = some r) : pushDown P m p q = some r := by
  induction hnm with
  | refl => exact h
  | step _ ih => exact pushDown_succ ih

end Mono

end DocLayer
