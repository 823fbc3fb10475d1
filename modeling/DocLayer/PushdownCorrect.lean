import DocLayer.PushdownSemantics

/-! # The rewriter keeps what a filter emits

Under the assumptions `PlannerSound` makes on the planner and the collection, and two more on
`simplify()` — it adds no `OR` term and leaves no `OR` without terms — `construct_filter_plan`
returns a plan, and that plan emits the documents the filter over the source emits, as a
multiset.

* **`pushDown_ok`** — for every fuel, a plan `push_down` returns emits what the filter over
  its source emits: one lemma per rewrite (`tableScanPushDown_ok`, `indexScanPushDown_ok`,
  `pushFirstTerm_ok`), by induction on the fuel.
* **`indexScan_terminates`, `tableScan_terminates`** — some fuel suffices: a compound
  refinement adds a field to a bounded number, an `OR` rewrite removes an `OR` term, an `AND`
  pushes a smaller term.
* **`constructFilterPlan_emits_filter`** — the two together.
* **`pkPlanner`** — a planner and a collection every assumption holds of, with a `simplify()`
  that turns an `OR` without terms into `NONE`.
* **`constructFilterPlan_returns_no_plan`** — the two assumptions on `simplify()` beyond keeping
  meaning are needed: without either, `construct_filter_plan` returns no plan. -/

namespace DocLayer

/-- **What the rewriter assumes of the planner and the collection**, with key parts (the
encodings `encode_key_part` produces) prefix-free, and at most `maxFields` fields to an
index. -/
structure PlannerSound (P : Planner) (C : Collection) (keyPart : Key → Prop) (maxFields : Nat) :
    Prop where
  /-- `simplify()` keeps a predicate's meaning, ... -/
  simplify_holds : ∀ q c, C.holds (P.simplify q) c = C.holds q c
  /-- ... adds no `OR` term ... -/
  simplify_orWeight : ∀ q, (P.simplify q).orWeight ≤ q.orWeight
  /-- ... and leaves no `OR` without terms. -/
  simplify_noEmptyOr : ∀ q, (P.simplify q).noEmptyOr = true
  /-- Every value satisfying a predicate lies in its range, ... -/
  range_sound : ∀ pred v, C.holds pred v = true → inRange (P.getRange pred).1 (P.getRange pred).2 v = true
  /-- ... and exactly those do when the range is tight. -/
  range_tight : ∀ pred v, P.rangeIsTight pred = true →
    inRange (P.getRange pred).1 (P.getRange pred).2 v = true → C.holds pred v = true
  /-- The range's bounds are key parts. -/
  range_keyPart : ∀ pred, (∀ b ∈ (P.getRange pred).1, keyPart b) ∧ ∀ e ∈ (P.getRange pred).2, keyPart e
  /-- Key parts are prefix-free, ... -/
  keyPart_prefix : ∀ a b, keyPart a → keyPart b → a <+: b → a = b
  /-- ... and lie in `["\x00", "\xff"]`. -/
  keyPart_bounds : ∀ a, keyPart a → allKeysBegin ≤ a ∧ a ≤ allKeysEnd
  /-- An expression's values are key parts. -/
  values_keyPart : ∀ e c v, v ∈ C.values e c → keyPart v
  /-- The one value of the `_id` path is the primary key. -/
  id_values : ∀ expr k, k ∈ C.docs → expr.getIndexKey = P.stringKeyPart idPath → C.values expr k = [k]
  /-- A simple index has one field, ... -/
  simple_size : ∀ key I, P.getSimpleIndex key = some I → I.size = 1 ∧ I.size ≤ maxFields
  /-- ... holding the values of the path it indexes. -/
  simple_values : ∀ expr I k, P.getSimpleIndex (P.stringKeyPart expr.getIndexKey) = some I →
    k ∈ C.docs → ∀ v, v ∈ C.indexValues I k ↔ v ∈ C.values expr k
  /-- A compound index extends its index by one field, up to `maxFields`, ... -/
  compound_size : ∀ I key J, P.getCompoundIndex I key = some J → J.size = I.size + 1 ∧ J.size ≤ maxFields
  /-- ... and holds its index's keys followed by the values of the path it adds. -/
  compound_values : ∀ I expr J k, P.getCompoundIndex I (P.stringKeyPart expr.getIndexKey) = some J →
    k ∈ C.docs → ∀ w, w ∈ C.indexValues J k ↔ ∃ a ∈ C.indexValues I k, ∃ v ∈ C.values expr k, w = a ++ v
  /-- An index's keys have as many parts as it has fields. -/
  index_keys : ∀ I k a, k ∈ C.docs → a ∈ C.indexValues I k → IsKey keyPart I.size a

/-! ### What the rewriter builds -/

/-- **A scan of one index key is bounded by a key of that index.** -/
def Plan.KeyBounded (keyPart : Key → Prop) (p : Plan) : Prop :=
  ∀ index v, p = .indexScan index (some v) (some v) → IsKey keyPart index.size v

/-- **How far the rewriter has refined a scan**: a table scan not at all, an index scan by its
index's fields; `none` for the plans no scan rewrite starts from. -/
def Plan.rank : Plan → Option Nat
  | .tableScan => some 0
  | .indexScan index _ _ => some (index.size + 1)
  | _ => none

/-- **`p'` is built below `p`**: a scan in its place refines `p`'s, on an index of at most
`maxFields` fields. -/
def Plan.Below (maxFields : Nat) (p p' : Plan) : Prop :=
  ∀ r', p'.rank = some r' → r' ≤ maxFields + 1 ∧ ∃ r, p.rank = some r ∧ r < r'

theorem Plan.Below.trans {maxFields : Nat} {p p' p'' : Plan} (h : p.Below maxFields p')
    (h' : p'.Below maxFields p'') : p.Below maxFields p'' := fun r'' hr'' =>
  let ⟨hle, _, hr', hlt⟩ := h' r'' hr''
  let ⟨_, r, hr, hlt'⟩ := h _ hr'
  ⟨hle, r, hr, hlt'.trans hlt⟩

theorem Plan.below_of_rank_none {maxFields : Nat} {p p' : Plan} (h : p'.rank = none) : p.Below maxFields p' :=
  fun _ h' => nomatch h.symm.trans h'

theorem Plan.not_below_tableScan {maxFields : Nat} (p : Plan) : ¬p.Below maxFields .tableScan := fun h =>
  let ⟨_, _, _, hlt⟩ := h 0 rfl
  Nat.not_lt_zero _ hlt

/-- **An answer of `push_down` is right**: a plan it returns emits what the filter over the
source emits, is key-bounded, and is built below the source. -/
def PushOk (C : Collection) (keyPart : Key → Prop) (maxFields : Nat) (p : Plan) (q : Predicate) (r : Pushed) :
    Prop :=
  ∀ p', r = some (some p') →
    (p'.emits C).Perm ((Plan.filter p q).emits C) ∧ p'.KeyBounded keyPart ∧ p.Below maxFields p'

/-- **An answer of `construct_filter_plan` is right**: the same, the source itself allowed. -/
def CfpOk (C : Collection) (keyPart : Key → Prop) (maxFields : Nat) (s : Plan) (f : Predicate) (r : Option Plan) :
    Prop :=
  ∀ p', r = some p' →
    (p'.emits C).Perm ((Plan.filter s f).emits C) ∧ p'.KeyBounded keyPart ∧ (p' = s ∨ s.Below maxFields p')

/-! ### Each rewrite keeps what the filter emits -/

section Correct

variable {P : Planner} {C : Collection} {keyPart : Key → Prop} {maxFields : Nat}

theorem PushOk.ite {p : Plan} {q : Predicate} {c : Bool} {r : Pushed} (h : c = true → PushOk C keyPart maxFields p q r) :
    PushOk C keyPart maxFields p q (if c = true then r else some none) := by
  intro p' h'
  split at h'
  · exact h ‹_› p' h'
  · cases h'

/-- **`construct_filter_plan` is right when `push_down` is.** -/
theorem cfp_ok {push : Plan → Predicate → Pushed}
    (hpush : ∀ s f, s.KeyBounded keyPart → PushOk C keyPart maxFields s f (push s f))
    {s : Plan} (f : Predicate) (hs : s.KeyBounded keyPart) :
    CfpOk C keyPart maxFields s f (constructFilterPlanWith push s f) := by
  intro p' h
  by_cases hf : f = .all
  · subst hf
    cases h
    exact ⟨.of_eq (List.filter_eq_self.2 fun _ _ => rfl).symm, hs, .inl rfl⟩
  · rw [constructFilterPlanWith_of_ne_all _ _ hf] at h
    obtain ⟨pd, hpd, rfl⟩ := Option.map_eq_some'.1 h
    cases pd with
    | none => exact ⟨.rfl, (fun _ _ h => nomatch h), .inr (Plan.below_of_rank_none rfl)⟩
    | some p' =>
      obtain ⟨h1, h2, h3⟩ := hpush s f hs p' hpd
      exact ⟨h1, h2, .inr h3⟩

/-- **A range pushed into `scan`** in place of the filter of `src` by `q` is right when the
scan's documents that satisfy `q` are the filter's, and the scan's documents are when the
range is tight. -/
theorem pushRange_ok {cfp : Plan → Predicate → Option Plan} {scan src : Plan} {pred q : Predicate}
    {S Q : Key → Bool} (hcfp : CfpOk C keyPart maxFields scan q (cfp scan q)) (hkb : scan.KeyBounded keyPart)
    (hb : src.Below maxFields scan) (hscan : scan.emits C = C.docs.filter S)
    (hsrc : (Plan.filter src q).emits C = C.docs.filter Q)
    (hfilter : ∀ k ∈ C.docs, (C.holds q k && S k) = Q k)
    (htight : P.rangeIsTight pred = true → ∀ k ∈ C.docs, S k = Q k) :
    PushOk C keyPart maxFields src q (pushRange P cfp scan pred q) := by
  intro p' h
  unfold pushRange at h
  split at h
  · cases h
    exact ⟨.of_eq (by rw [hscan, hsrc, List.filter_congr (htight ‹_›)]), hkb, hb⟩
  · obtain ⟨p'', hp'', h⟩ := Option.map_eq_some'.1 h
    cases h
    obtain ⟨h1, h2, h3⟩ := hcfp p' hp''
    refine ⟨h1.trans (.of_eq ?_), h2, h3.elim (· ▸ hb) hb.trans⟩
    rw [Plan.emits_filter, hscan, hsrc, List.filter_filter, List.filter_congr hfilter]

end Correct

/-- **The filter over `l` by `a ∨ b`**, as the rewrite of an `OR` builds it: the documents that
satisfy `a` and not `b`, then those that satisfy `b`. -/
theorem filter_or_perm (l : List Key) (a b : Key → Bool) :
    (l.filter (fun x => a x && !b x) ++ l.filter b).Perm (l.filter fun x => a x || b x) := by
  have h := List.filter_append_perm b (l.filter fun x => a x || b x)
  rw [List.filter_filter, List.filter_filter] at h
  refine List.perm_append_comm.trans (List.Perm.trans (.of_eq ?_) h)
  congr 1 <;> apply List.filter_congr <;> intro x _ <;> cases a x <;> cases b x <;> rfl

theorem Collection.holds_and_insert (C : Collection) (pre post : List Predicate) (t : Predicate) (c : Key) :
    C.holds (.and (pre ++ t :: post)) c = (C.holds (.and (pre ++ post)) c && C.holds t c) := by
  simp only [Collection.holds_and, List.all_append, List.all_cons]
  cases C.holds t c <;> simp

theorem Collection.holds_or_getLast? (C : Collection) {terms : List Predicate} {last : Predicate}
    (hl : terms.getLast? = some last) (c : Key) :
    C.holds (.or terms) c = (C.holds (.or terms.dropLast) c || C.holds last c) := by
  conv_lhs => rw [← List.dropLast_append_getLast? last hl]
  simp [List.any_append]

/-- **An index key of one part** is a key part. -/
theorem IsKey.one {keyPart : Key → Prop} {v : Key} (h : keyPart v) : IsKey keyPart 1 v := .snoc .nil h

/-- An absent suffix bound stands for `"\x00"` or `"\xff"`, which hold no key part between them and
it: extending a key by the bounds of a range admits its extensions by the range's values. -/
theorem inRange_append {w : Key} (hw : allKeysBegin ≤ w ∧ w ≤ allKeysEnd) (v : Key) (b e : Option Key) :
    inRange (some (v ++ b.getD allKeysBegin)) (some (v ++ e.getD allKeysEnd)) (v ++ w) = inRange b e w := by
  cases b <;> cases e <;> simp [inRange, append_le_append_left_iff, hw.1, hw.2]

/-- When a suffix bound stands for both ends, it is a key part. -/
theorem keyPart_getD {keyPart : Key → Prop} {b e : Option Key} (h : (∀ x ∈ b, keyPart x) ∧ ∀ x ∈ e, keyPart x)
    (heq : b.getD allKeysBegin = e.getD allKeysEnd) : keyPart (b.getD allKeysBegin) := by
  rcases b with _ | x
  · rcases e with _ | y
    · exact absurd heq (by decide)
    · exact heq ▸ h.2 y rfl
  · exact h.1 x rfl

section Sound

variable {P : Planner} {C : Collection} {keyPart : Key → Prop} {maxFields : Nat}
  (hs : PlannerSound P C keyPart maxFields)
include hs

theorem PlannerSound.holds_simplify (q : Predicate) : C.holds (P.simplify q) = C.holds q :=
  funext (hs.simplify_holds q)

/-- Under a tight range, lying in the range is satisfying the predicate. -/
theorem PlannerSound.inRange_eq_holds {pred : Predicate} (ht : P.rangeIsTight pred = true) :
    inRange (P.getRange pred).1 (P.getRange pred).2 = C.holds pred :=
  funext fun v => Bool.eq_iff_iff.2 ⟨hs.range_tight pred v ht, hs.range_sound pred v⟩

theorem PlannerSound.holds_and_inRange (pred : Predicate) (v : Key) :
    (C.holds pred v && inRange (P.getRange pred).1 (P.getRange pred).2 v) = C.holds pred v := by
  cases h : C.holds pred v
  · rfl
  · exact hs.range_sound pred v h

theorem PlannerSound.any_holds_and_any_inRange (l : List Key) (pred : Predicate) :
    (l.any (C.holds pred) && l.any (inRange (P.getRange pred).1 (P.getRange pred).2)) = l.any (C.holds pred) := by
  cases h : l.any (C.holds pred)
  · rfl
  · obtain ⟨v, hv, hp⟩ := List.any_eq_true.1 h
    exact List.any_eq_true.2 ⟨v, hv, hs.range_sound pred v hp⟩

/-- **The `AND` case**: the first term pushed, filtered by the others, is the filter by all. -/
theorem PlannerSound.pushFirstTerm_ok {p : Plan} {push : Predicate → Pushed} {cfp : Plan → Predicate → Option Plan}
    (hpush : ∀ t, PushOk C keyPart maxFields p t (push t))
    (hcfp : ∀ s f, s.KeyBounded keyPart → CfpOk C keyPart maxFields s f (cfp s f)) :
    ∀ (terms pre : List Predicate),
      PushOk C keyPart maxFields p (.and (pre ++ terms)) (pushFirstTerm P push cfp pre terms)
  | [], _ => fun _ h => nomatch h
  | t :: post, pre => fun p' h => by
    obtain ⟨pt, hpt, h⟩ := Option.bind_eq_some.1 h
    cases pt with
    | none => simpa using PlannerSound.pushFirstTerm_ok hpush hcfp post (pre ++ [t]) p' h
    | some pd =>
      obtain ⟨hperm, hkb, hb⟩ := hpush t pd hpt
      obtain ⟨p'', hp'', h⟩ := Option.map_eq_some'.1 h
      cases h
      obtain ⟨h1, h2, h3⟩ := hcfp pd _ hkb p' hp''
      refine ⟨h1.trans ?_, h2, h3.elim (· ▸ hb) hb.trans⟩
      rw [Plan.emits_filter, hs.holds_simplify]
      refine (hperm.filter _).trans (.of_eq ?_)
      rw [Plan.emits_filter, Plan.emits_filter, List.filter_filter]
      exact List.filter_congr fun c _ => (C.holds_and_insert pre post t c).symm

/-- **A range on `_id`** becomes a primary-key lookup. -/
theorem PlannerSound.primaryKey_ok {cfp : Plan → Predicate → Option Plan} {expr : Expr} {pred : Predicate}
    (hid : expr.getIndexKey = P.stringKeyPart idPath)
    (hcfp : ∀ s f, s.KeyBounded keyPart → CfpOk C keyPart maxFields s f (cfp s f)) :
    PushOk C keyPart maxFields .tableScan (.any expr pred)
      (pushRange P cfp (.primaryKeyLookup (P.getRange pred).1 (P.getRange pred).2) pred (.any expr pred)) := by
  have hval : ∀ k ∈ C.docs, C.holds (.any expr pred) k = C.holds pred k := fun k hk => by
    simp [hs.id_values expr k hk hid]
  refine pushRange_ok (hcfp _ _ fun _ _ h => nomatch h) (fun _ _ h => nomatch h) (Plan.below_of_rank_none rfl)
    rfl rfl (fun k hk => ?_) (fun ht k hk => ?_)
  · rw [hval k hk, hs.holds_and_inRange]
  · rw [hval k hk, hs.inRange_eq_holds ht]

/-- A scan of a simple index over a range's bounds is bounded by a key of that index. -/
theorem PlannerSound.simpleIndex_keyBounded {key : Key} {index : IndexInfo} (hI : P.getSimpleIndex key = some index)
    (pred : Predicate) : (Plan.indexScan index (P.getRange pred).1 (P.getRange pred).2).KeyBounded keyPart := by
  intro J v h
  simp only [Plan.indexScan.injEq] at h
  obtain ⟨rfl, h1, -⟩ := h
  exact (hs.simple_size _ _ hI).1 ▸ IsKey.one ((hs.range_keyPart pred).1 v h1)

/-- **A range on a path with a simple index** becomes a scan of that index. -/
theorem PlannerSound.simpleIndex_ok {cfp : Plan → Predicate → Option Plan} {expr : Expr} {pred : Predicate}
    {index : IndexInfo} (hI : P.getSimpleIndex (P.stringKeyPart expr.getIndexKey) = some index)
    (hcfp : ∀ s f, s.KeyBounded keyPart → CfpOk C keyPart maxFields s f (cfp s f)) :
    PushOk C keyPart maxFields .tableScan (.any expr pred)
      (pushRange P cfp (.indexScan index (P.getRange pred).1 (P.getRange pred).2) pred (.any expr pred)) := by
  have hkb := hs.simpleIndex_keyBounded hI pred
  have hval : ∀ k ∈ C.docs, (C.indexValues index k).any (inRange (P.getRange pred).1 (P.getRange pred).2) =
      (C.values expr k).any (inRange (P.getRange pred).1 (P.getRange pred).2) := fun k hk =>
    Bool.eq_iff_iff.2 (by simp only [List.any_eq_true, hs.simple_values expr index k hI hk])
  refine pushRange_ok (hcfp _ _ hkb) hkb (fun r' h => ?_) rfl rfl (fun k hk => ?_) (fun ht k hk => ?_)
  · cases h
    exact ⟨by have := hs.simple_size _ _ hI; omega, 0, rfl, Nat.succ_pos _⟩
  · rw [hval k hk, Collection.holds_any, hs.any_holds_and_any_inRange]
  · rw [hval k hk, Collection.holds_any, hs.inRange_eq_holds ht]

/-- **The compound scan of key `v` extended by a range** holds the documents having the entry `v`
in the index and a value in the range. -/
theorem PlannerSound.compound_any {index cidx : IndexInfo} {expr : Expr} {v k : Key} {b e : Option Key}
    (hJ : P.getCompoundIndex index (P.stringKeyPart expr.getIndexKey) = some cidx) (hk : k ∈ C.docs)
    (hv : IsKey keyPart index.size v) :
    (C.indexValues cidx k).any (inRange (some (v ++ b.getD allKeysBegin)) (some (v ++ e.getD allKeysEnd))) =
      ((C.indexValues index k).any (inRange (some v) (some v)) && (C.values expr k).any (inRange b e)) := by
  have happ : ∀ w ∈ C.values expr k,
      inRange (some (v ++ b.getD allKeysBegin)) (some (v ++ e.getD allKeysEnd)) (v ++ w) = inRange b e w :=
    fun w hw => inRange_append (hs.keyPart_bounds w (hs.values_keyPart expr k w hw)) v b e
  apply Bool.eq_iff_iff.2
  simp only [Bool.and_eq_true, List.any_eq_true, hs.compound_values index expr cidx k hJ hk]
  constructor
  · rintro ⟨_, ⟨a, ha, w, hw, rfl⟩, hin⟩
    have hav : a = v := by
      simp only [inRange_some_left, Option.all_some, Bool.and_eq_true, decide_eq_true_eq] at hin
      exact IsKey.eq_of_between hs.keyPart_prefix (hs.index_keys index k a hk ha) hv hin.1 hin.2
    subst hav
    exact ⟨⟨a, ha, by simp⟩, w, hw, happ w hw ▸ hin⟩
  · rintro ⟨⟨a, ha, hin⟩, w, hw, hw'⟩
    have hav : a = v := by
      simp only [inRange_some_left, Option.all_some, Bool.and_eq_true, decide_eq_true_eq] at hin
      exact le_antisymm hin.2 hin.1
    subst hav
    exact ⟨a ++ w, ⟨a, ha, w, hw, rfl⟩, (happ w hw).trans hw'⟩

/-- A compound scan of one key extended by a range is bounded by a key of its index. -/
theorem PlannerSound.compound_keyBounded {index cidx : IndexInfo} {key v : Key} (pred : Predicate)
    (hJ : P.getCompoundIndex index key = some cidx) (hv : IsKey keyPart index.size v) :
    (Plan.indexScan cidx (some (v ++ (P.getRange pred).1.getD allKeysBegin))
      (some (v ++ (P.getRange pred).2.getD allKeysEnd))).KeyBounded keyPart := by
  intro J x h
  simp only [Plan.indexScan.injEq, Option.some.injEq] at h
  obtain ⟨rfl, rfl, h⟩ := h
  rw [(hs.compound_size _ _ _ hJ).1]
  exact .snoc hv (keyPart_getD (hs.range_keyPart pred) (List.append_cancel_left h).symm)

/-- **An index scan of one key refined by a compound index.** -/
theorem PlannerSound.compound_ok {cfp : Plan → Predicate → Option Plan} {index cidx : IndexInfo} {expr : Expr}
    {pred : Predicate} {v : Key} (hv : IsKey keyPart index.size v)
    (hJ : P.getCompoundIndex index (P.stringKeyPart expr.getIndexKey) = some cidx)
    (hcfp : ∀ s f, s.KeyBounded keyPart → CfpOk C keyPart maxFields s f (cfp s f)) :
    PushOk C keyPart maxFields (.indexScan index (some v) (some v)) (.any expr pred)
      (pushRange P cfp (.indexScan cidx (some (v ++ (P.getRange pred).1.getD allKeysBegin))
        (some (v ++ (P.getRange pred).2.getD allKeysEnd))) pred (.any expr pred)) := by
  have hkb := hs.compound_keyBounded pred hJ hv
  refine pushRange_ok (Q := fun k => C.holds (.any expr pred) k &&
      (C.indexValues index k).any (inRange (some v) (some v)))
    (hcfp _ _ hkb) hkb (fun r' h => ?_) rfl (List.filter_filter _ _) (fun k hk => ?_) (fun ht k hk => ?_)
  · cases h
    have := hs.compound_size _ _ _ hJ
    exact ⟨by omega, _, rfl, by omega⟩
  · dsimp only
    rw [hs.compound_any hJ hk hv, Collection.holds_any, Bool.and_comm ((C.indexValues index k).any _),
      ← Bool.and_assoc, hs.any_holds_and_any_inRange]
  · dsimp only
    rw [hs.compound_any hJ hk hv, Collection.holds_any, hs.inRange_eq_holds ht, Bool.and_comm]

/-- **An `OR`** becomes the union of the push of its last term and of the push of the others
without it. -/
theorem PlannerSound.or_ok {push : Predicate → Pushed} {cfp : Plan → Predicate → Option Plan} (hpush : ∀ q, PushOk C keyPart maxFields .tableScan q (push q))
    (terms : List Predicate) :
    PushOk C keyPart maxFields .tableScan (.or terms) (tableScanPushDown P push cfp (.or terms)) := by
  simp only [tableScanPushDown]
  cases hl : terms.getLast? with
  | none => exact fun _ h => nomatch h
  | some last =>
    intro p' h
    obtain ⟨_ | lastPlan, hpl, h⟩ := Option.bind_eq_some.1 h
    · cases h
    obtain ⟨_ | pd, hpd, h⟩ := Option.map_eq_some'.1 h
    · cases h
    cases h
    refine ⟨(List.Perm.append (hpush _ pd hpd).1 (hpush _ lastPlan hpl).1).trans ?_,
      (fun _ _ h => nomatch h), Plan.below_of_rank_none rfl⟩
    simp only [Plan.emits_filter, Plan.emits_tableScan, hs.holds_simplify]
    refine List.Perm.trans (.of_eq ?_) ((filter_or_perm C.docs (C.holds (.or terms.dropLast)) (C.holds last)).trans
      (.of_eq (List.filter_congr fun c _ => (C.holds_or_getLast? hl c).symm)))
    exact congrArg (· ++ _) (List.filter_congr fun c _ => by simp)

/-- **`TableScanPlan::push_down` keeps what the filter emits**, given that its recursive calls
and `construct_filter_plan` do. -/
theorem PlannerSound.tableScanPushDown_ok {push : Predicate → Pushed} {cfp : Plan → Predicate → Option Plan}
    (hpush : ∀ q, PushOk C keyPart maxFields .tableScan q (push q))
    (hcfp : ∀ s f, s.KeyBounded keyPart → CfpOk C keyPart maxFields s f (cfp s f)) :
    ∀ q, PushOk C keyPart maxFields .tableScan q (tableScanPushDown P push cfp q)
  | .any expr pred => by
    simp only [tableScanPushDown]
    by_cases hid : expr.getIndexKey = P.stringKeyPart idPath
    · simp only [hid, if_true]
      exact PushOk.ite fun _ => hs.primaryKey_ok hid hcfp
    · simp only [hid, if_false]
      split
      · exact PushOk.ite fun _ => hs.simpleIndex_ok ‹_› hcfp
      · exact fun _ h => nomatch h
  | .or terms => hs.or_ok hpush terms
  | .and terms => by simpa using hs.pushFirstTerm_ok hpush hcfp terms []
  | .none => fun p' h => by
    cases h
    exact ⟨by simp, (fun _ _ h => nomatch h), Plan.below_of_rank_none rfl⟩
  | .all | .not _ | .leaf _ => fun _ h => nomatch h

/-- **`IndexScanPlan::push_down` keeps what the filter emits**, for a key-bounded scan. -/
theorem PlannerSound.indexScanPushDown_ok {index : IndexInfo} {b e : Option Key} {push : Predicate → Pushed}
    {cfp : Plan → Predicate → Option Plan} (hkb : (Plan.indexScan index b e).KeyBounded keyPart)
    (hpush : ∀ q, PushOk C keyPart maxFields (.indexScan index b e) q (push q))
    (hcfp : ∀ s f, s.KeyBounded keyPart → CfpOk C keyPart maxFields s f (cfp s f)) (q : Predicate) :
    PushOk C keyPart maxFields (.indexScan index b e) q (indexScanPushDown P index b e push cfp q) := by
  refine PushOk.ite fun hsk => ?_
  obtain ⟨v, rfl, rfl⟩ := singleKey_iff.1 hsk
  cases q with
  | any expr pred =>
    simp only [Option.map_some']
    split
    · exact PushOk.ite fun _ => hs.compound_ok (hkb index v rfl) ‹_› hcfp
    · exact fun _ h => nomatch h
  | and terms => simpa using hs.pushFirstTerm_ok hpush hcfp terms []
  | all | none | or | not | leaf => exact fun _ h => nomatch h

/-- **Every answer of `push_down` is right**: on any fuel, a plan it returns for a key-bounded
source emits what the filter over the source emits. -/
theorem PlannerSound.pushDown_ok : ∀ (n : Nat) {p : Plan} (q : Predicate), p.KeyBounded keyPart →
    PushOk C keyPart maxFields p q (pushDown P n p q)
  | 0, _, _, _ => fun _ h => nomatch h
  | n + 1, p, q, hkb => by
    have hcfp : ∀ s f, s.KeyBounded keyPart →
        CfpOk C keyPart maxFields s f (constructFilterPlanWith (pushDown P n) s f) :=
      fun _ f => cfp_ok (fun _ f => PlannerSound.pushDown_ok n f) f
    cases p with
    | tableScan => exact hs.tableScanPushDown_ok (fun q => PlannerSound.pushDown_ok n q hkb) hcfp q
    | indexScan index b e =>
      exact hs.indexScanPushDown_ok hkb (fun q => PlannerSound.pushDown_ok n q hkb) hcfp q
    | filter source f =>
      intro p' h
      cases h
      refine ⟨.of_eq ?_, (fun _ _ h => nomatch h), Plan.below_of_rank_none rfl⟩
      simp only [Plan.emits_filter, hs.holds_simplify, List.filter_filter]
      exact List.filter_congr fun c _ => by simp [Bool.and_comm]
    | _ => exact fun _ h => nomatch h

/-! ### Some fuel suffices -/

omit hs in
theorem lex_of_le_of_lt {a b c d : Nat} (h1 : a ≤ b) (h2 : c < d) :
    Prod.Lex (fun a₁ a₂ => a₁ < a₂) (fun a₁ a₂ => a₁ < a₂) (a, c) (b, d) :=
  Prod.lex_def.2 (by dsimp only; omega)

omit hs in
theorem constructFilterPlanWith_isSome {push : Plan → Predicate → Pushed} {s : Plan} {f : Predicate} {r : Option Plan}
    (h : push s f = some r) : ∃ p', constructFilterPlanWith push s f = some p' := by
  by_cases hf : f = .all
  · exact ⟨s, hf ▸ rfl⟩
  · rw [constructFilterPlanWith_of_ne_all _ _ hf, h]
    exact ⟨_, rfl⟩

omit hs in
/-- The plans no scan rewrite starts from answer on one unit of fuel. -/
theorem pushDown_one_of_rank_none {p : Plan} (h : p.rank = none) (q : Predicate) : ∃ r, pushDown P 1 p q = some r := by
  cases p <;> first | exact ⟨_, rfl⟩ | cases h

omit hs in
theorem pushFirstTerm_fuel_mono {n m : Nat} (hnm : n ≤ m) {p : Plan} {terms pre : List Predicate} {r : Option Plan}
    (h : pushFirstTerm P (pushDown P n p) (constructFilterPlanWith (pushDown P n)) pre terms = some r) :
    pushFirstTerm P (pushDown P m p) (constructFilterPlanWith (pushDown P m)) pre terms = some r :=
  pushFirstTerm_mono (fun _ _ => pushDown_mono hnm)
    (fun _ _ _ => constructFilterPlanWith_mono fun _ _ _ => pushDown_mono hnm) terms pre h

omit hs in
/-- **The `AND` case answers** when the pushes of its terms do, and the plans they return answer
every push. -/
theorem pushFirstTerm_terminates {p : Plan} :
    ∀ {terms : List Predicate}, (∀ t ∈ terms, ∃ n r, pushDown P n p t = some r) →
      (∀ t n pd, pushDown P n p t = some (some pd) → ∀ f, ∃ m r, pushDown P m pd f = some r) →
      ∀ pre, ∃ n r, pushFirstTerm P (pushDown P n p) (constructFilterPlanWith (pushDown P n)) pre terms = some r
  | [], _, _, _ => ⟨0, _, rfl⟩
  | t :: post, hp, hc, pre => by
    obtain ⟨n1, r1, h1⟩ := hp t (.head _)
    cases r1 with
    | none =>
      obtain ⟨n2, r2, h2⟩ := pushFirstTerm_terminates (fun t ht => hp t (.tail _ ht)) hc (pre ++ [t])
      refine ⟨max n1 n2, r2, ?_⟩
      simp only [pushFirstTerm, pushDown_mono (le_max_left _ _) h1, Option.some_bind]
      exact pushFirstTerm_fuel_mono (le_max_right _ _) h2
    | some pd =>
      obtain ⟨m, r, hm⟩ := hc t n1 pd h1 (P.simplify (.and (pre ++ post)))
      obtain ⟨p', hp'⟩ := constructFilterPlanWith_isSome (pushDown_mono (le_max_right n1 m) hm)
      exact ⟨max n1 m, some p', by
        simp only [pushFirstTerm, pushDown_mono (le_max_left _ _) h1, Option.some_bind, hp', Option.map_some']⟩

/-- **An index scan answers every push**: a compound refinement adds a field, up to
`maxFields`, and an `AND` pushes smaller terms. -/
theorem PlannerSound.indexScan_terminates {index : IndexInfo} {b e : Option Key}
    (hkb : (Plan.indexScan index b e).KeyBounded keyPart) (q : Predicate) :
    ∃ n r, pushDown P n (.indexScan index b e) q = some r := by
  by_cases hsk : singleKey b e = true
  swap
  · exact ⟨1, none, by simp [pushDown, indexScanPushDown, hsk]⟩
  obtain ⟨v, rfl, rfl⟩ := singleKey_iff.1 hsk
  cases q with
  | any expr pred =>
    cases hJ : P.getCompoundIndex index (P.stringKeyPart expr.getIndexKey) with
    | none => exact ⟨1, none, by simp [pushDown, indexScanPushDown, hsk, hJ]⟩
    | some cidx =>
      have hdec : maxFields - cidx.size < maxFields - index.size := by
        have := hs.compound_size _ _ _ hJ
        omega
      obtain ⟨n, r, h⟩ := PlannerSound.indexScan_terminates (hs.compound_keyBounded pred hJ (hkb index v rfl))
        (.any expr pred)
      obtain ⟨p', hp'⟩ := constructFilterPlanWith_isSome h
      refine ⟨n + 1, ?_⟩
      simp only [pushDown, indexScanPushDown, hsk, if_true, hJ, pushRange, Option.map_some', hp']
      split_ifs <;> exact ⟨_, rfl⟩
  | and terms =>
    have hc : ∀ t n pd, pushDown P n (.indexScan index (some v) (some v)) t = some (some pd) →
        ∀ f, ∃ m r, pushDown P m pd f = some r := by
      intro t n pd hpd f
      obtain ⟨-, hkb', hb⟩ := hs.pushDown_ok n t hkb pd hpd
      cases pd with
      | tableScan => exact absurd hb (Plan.not_below_tableScan _)
      | indexScan cidx b' e' =>
        have hdec : maxFields - cidx.size < maxFields - index.size := by
          obtain ⟨hle, _, h, hlt⟩ := hb _ rfl
          cases h
          omega
        exact PlannerSound.indexScan_terminates hkb' f
      | _ => exact ⟨1, pushDown_one_of_rank_none (by rfl) f⟩
    obtain ⟨n, r, h⟩ := pushFirstTerm_terminates
      (fun t ht => have := Predicate.size_lt_of_mem ht; PlannerSound.indexScan_terminates hkb t) hc []
    exact ⟨n + 1, r, by simpa [pushDown, indexScanPushDown, hsk] using h⟩
  | all | none | or | not | leaf => exact ⟨1, none, by simp [pushDown, indexScanPushDown, hsk]⟩
termination_by (maxFields - index.size, q.size)
decreasing_by
  all_goals first
    | exact Prod.Lex.left _ _ ‹_›
    | exact Prod.Lex.right _ (by simpa [Predicate.size] using ‹_›)

/-- **A plan other than a table scan answers every push.** -/
theorem PlannerSound.terminates_of_ne_tableScan {p : Plan} (hp : p ≠ .tableScan) (hkb : p.KeyBounded keyPart)
    (q : Predicate) : ∃ n r, pushDown P n p q = some r := by
  cases p with
  | tableScan => exact absurd rfl hp
  | indexScan => exact hs.indexScan_terminates hkb q
  | _ => exact ⟨1, pushDown_one_of_rank_none (by rfl) q⟩

/-- **A range pushed into a scan answers** when the scan answers the push of the query. -/
theorem PlannerSound.ite_pushRange_terminates (scan : Plan) (hne : scan ≠ .tableScan)
    (hkb : scan.KeyBounded keyPart) (c : Bool) (pred q : Predicate) :
    ∃ n r, (if c = true then pushRange P (constructFilterPlanWith (pushDown P n)) scan pred q else some none) =
      some r := by
  obtain ⟨n, r, h⟩ := hs.terminates_of_ne_tableScan hne hkb q
  obtain ⟨p', hp'⟩ := constructFilterPlanWith_isSome h
  refine ⟨n, ?_⟩
  simp only [pushRange, hp', Option.map_some']
  split_ifs <;> exact ⟨_, rfl⟩

/-- **A table scan answers every push of a predicate with no empty `OR`**: the `OR` rewrite
pushes its last term and the rebuilt `AND(OR(rest), NOT(last))`, both with fewer `OR` terms
since `simplify()` adds none; an `AND` pushes smaller terms, and the plans they return answer;
a range becomes a scan, which answers. -/
theorem PlannerSound.tableScan_terminates : ∀ (q : Predicate), q.noEmptyOr = true →
    ∃ n r, pushDown P n .tableScan q = some r
  | .any expr pred, _ => by
    by_cases hid : expr.getIndexKey = P.stringKeyPart idPath
    · obtain ⟨n, r, h⟩ := hs.ite_pushRange_terminates (.primaryKeyLookup (P.getRange pred).1 (P.getRange pred).2)
        (by simp) (fun _ _ h => nomatch h)
        ((P.getRange pred).1.isSome || (P.getRange pred).2.isSome) pred (.any expr pred)
      exact ⟨n + 1, r, by simpa [pushDown, tableScanPushDown, hid] using h⟩
    · cases hI : P.getSimpleIndex (P.stringKeyPart expr.getIndexKey) with
      | none => exact ⟨1, none, by simp [pushDown, tableScanPushDown, hid, hI]⟩
      | some index =>
        obtain ⟨n, r, h⟩ := hs.ite_pushRange_terminates _ (by simp) (hs.simpleIndex_keyBounded hI pred)
          ((P.getRange pred).1.isSome || (P.getRange pred).2.isSome) pred (.any expr pred)
        exact ⟨n + 1, r, by simpa [pushDown, tableScanPushDown, hid, hI] using h⟩
  | .or terms, hq => by
    have hq' : terms ≠ [] ∧ ∀ t ∈ terms, t.noEmptyOr = true := by simpa [Predicate.noEmptyOr] using hq
    obtain ⟨last, hl⟩ := Option.ne_none_iff_exists'.1 (mt List.getLast?_eq_none_iff.1 hq'.1)
    have hw := Predicate.orWeight_orRewrite hl
    have hlast : last.orWeight < (Predicate.or terms).orWeight := by
      simp only [Predicate.orWeight, Predicate.orWeightList] at hw ⊢
      omega
    have hrest : (P.simplify (.and [.or terms.dropLast, .not last])).orWeight < (Predicate.or terms).orWeight := by
      have := hs.simplify_orWeight (.and [.or terms.dropLast, .not last])
      omega
    obtain ⟨n1, r1, h1⟩ := PlannerSound.tableScan_terminates last (hq'.2 last (List.mem_of_getLast?_eq_some hl))
    obtain ⟨n2, r2, h2⟩ := PlannerSound.tableScan_terminates _ (hs.simplify_noEmptyOr (.and [.or terms.dropLast, .not last]))
    refine ⟨max n1 n2 + 1, ?_⟩
    simp only [pushDown, tableScanPushDown, hl, pushDown_mono (le_max_left _ _) h1, Option.some_bind]
    cases r1 <;> simp [pushDown_mono (le_max_right _ _) h2]
  | .and terms, hq => by
    have hq' : ∀ t ∈ terms, t.noEmptyOr = true := by simpa [Predicate.noEmptyOr] using hq
    have hc : ∀ t n pd, pushDown P n .tableScan t = some (some pd) → ∀ f, ∃ m r, pushDown P m pd f = some r :=
      fun t n pd hpd f =>
        let ⟨_, hkb, hb⟩ := hs.pushDown_ok n t (by exact fun _ _ h => nomatch h) pd hpd
        hs.terminates_of_ne_tableScan (fun h => Plan.not_below_tableScan _ (h ▸ hb)) hkb f
    obtain ⟨n, r, h⟩ := pushFirstTerm_terminates (fun t ht =>
      have := Predicate.size_lt_of_mem ht
      have := Predicate.orWeight_le_of_mem ht
      PlannerSound.tableScan_terminates t (hq' t ht)) hc []
    exact ⟨n + 1, r, by simpa [pushDown, tableScanPushDown] using h⟩
  | .all, _ | .none, _ | .not _, _ | .leaf _, _ => ⟨1, _, rfl⟩
termination_by q => (q.orWeight, q.size)
decreasing_by
  all_goals first
    | exact Prod.Lex.left _ _ ‹_›
    | (simp only [Predicate.orWeight, Predicate.size, Predicate.orWeightList_eq, Predicate.sizeList_eq]
       exact lex_of_le_of_lt ‹_› ‹_›)

end Sound

/-! ### A planner the assumptions hold of

A `simplify()` that drops empty `OR`s keeps meaning, adds no `OR` term and leaves no empty
`OR`; with two documents keyed by one-byte `_id`s and value predicates with tight one-key
ranges, every assumption of `PlannerSound` holds. -/

mutual
/-- **A `simplify()` that turns each `OR` without terms into `NONE`**, among the terms of `AND`
and `OR` nodes. -/
def Predicate.dropEmptyOr : Predicate → Predicate
  | .and ts => .and (Predicate.dropEmptyOrList ts)
  | .or [] => .none
  | .or (t :: ts) => .or (Predicate.dropEmptyOrList (t :: ts))
  | p => p
/-- `dropEmptyOr` on each term. -/
def Predicate.dropEmptyOrList : List Predicate → List Predicate
  | [] => []
  | t :: ts => t.dropEmptyOr :: Predicate.dropEmptyOrList ts
end

theorem Predicate.length_dropEmptyOrList (ts : List Predicate) :
    (Predicate.dropEmptyOrList ts).length = ts.length := by
  induction ts with
  | nil => rfl
  | cons t ts ih => simp [Predicate.dropEmptyOrList, ih]

mutual
theorem Predicate.holds_dropEmptyOr (C : Collection) :
    ∀ (q : Predicate) (c : Key), C.holds q.dropEmptyOr c = C.holds q c
  | .and ts, c => by simp only [Predicate.dropEmptyOr, Collection.holds_and, (Predicate.holds_dropEmptyOrList C ts c).1]
  | .or [], _ => rfl
  | .or (t :: ts), c => by
    simp only [Predicate.dropEmptyOr, Collection.holds_or, (Predicate.holds_dropEmptyOrList C (t :: ts) c).2]
  | .all, _ | .none, _ | .not _, _ | .any _ _, _ | .leaf _, _ => rfl
theorem Predicate.holds_dropEmptyOrList (C : Collection) : ∀ (ts : List Predicate) (c : Key),
    ((Predicate.dropEmptyOrList ts).all fun t => C.holds t c) = (ts.all fun t => C.holds t c) ∧
      ((Predicate.dropEmptyOrList ts).any fun t => C.holds t c) = (ts.any fun t => C.holds t c)
  | [], _ => ⟨rfl, rfl⟩
  | t :: ts, c => by
    simp only [Predicate.dropEmptyOrList, List.all_cons, List.any_cons, Predicate.holds_dropEmptyOr C t c,
      (Predicate.holds_dropEmptyOrList C ts c).1, (Predicate.holds_dropEmptyOrList C ts c).2, and_self]
end

mutual
theorem Predicate.orWeight_dropEmptyOr : ∀ q : Predicate, q.dropEmptyOr.orWeight = q.orWeight
  | .and ts => by simp only [Predicate.dropEmptyOr, Predicate.orWeight, Predicate.orWeightList_dropEmptyOrList ts]
  | .or [] => rfl
  | .or (t :: ts) => by
    simp only [Predicate.dropEmptyOr, Predicate.orWeight, Predicate.orWeightList_dropEmptyOrList (t :: ts),
      Predicate.length_dropEmptyOrList]
  | .all | .none | .not _ | .any _ _ | .leaf _ => rfl
theorem Predicate.orWeightList_dropEmptyOrList : ∀ ts : List Predicate,
    Predicate.orWeightList (Predicate.dropEmptyOrList ts) = Predicate.orWeightList ts
  | [] => rfl
  | t :: ts => by
    simp only [Predicate.dropEmptyOrList, Predicate.orWeightList, Predicate.orWeight_dropEmptyOr t,
      Predicate.orWeightList_dropEmptyOrList ts]
end

mutual
theorem Predicate.noEmptyOr_dropEmptyOr : ∀ q : Predicate, q.dropEmptyOr.noEmptyOr = true
  | .and ts => by simp only [Predicate.dropEmptyOr, Predicate.noEmptyOr, Predicate.noEmptyOrList_dropEmptyOrList ts]
  | .or [] => rfl
  | .or (t :: ts) => by
    simp only [Predicate.dropEmptyOr, Predicate.noEmptyOr, Predicate.noEmptyOrList_dropEmptyOrList (t :: ts)]
    simp [Predicate.dropEmptyOrList]
  | .all | .none | .not _ | .any _ _ | .leaf _ => rfl
theorem Predicate.noEmptyOrList_dropEmptyOrList : ∀ ts : List Predicate,
    Predicate.noEmptyOrList (Predicate.dropEmptyOrList ts) = true
  | [] => rfl
  | t :: ts => by
    simp only [Predicate.dropEmptyOrList, Predicate.noEmptyOrList, Predicate.noEmptyOr_dropEmptyOr t,
      Predicate.noEmptyOrList_dropEmptyOrList ts, Bool.and_self]
end

theorem singleton_le_singleton {a b : Byte} (h : a ≤ b) : [a] ≤ [b] :=
  cons_le_cons.2 (h.lt_or_eq.imp_right fun h => ⟨h, le_rfl⟩)

/-- **Two documents, keyed `[1]` and `[2]`**: an `_id` path yields the context when it is a
one-byte key, value predicate `i` holds of the key `[i]`, and there are no index entries. -/
def pkCollection : Collection :=
  ⟨[[1], [2]], fun e c => if e.getIndexKey = idPath ∧ c.length = 1 then [c] else [],
    fun i v => v = [Fin.ofNat i], fun _ _ => [], fun _ => []⟩

/-- **A planner for `pkCollection`**: `simplify()` drops empty `OR`s, value predicate `i` has
the tight range `[[i], [i]]`, no other predicate a range, and there are no indexes. -/
def pkPlanner : Planner :=
  ⟨Predicate.dropEmptyOr, fun | .leaf i => (some [Fin.ofNat i], some [Fin.ofNat i]) | _ => (none, none),
    fun | .leaf _ => true | _ => false, fun _ => none, fun _ _ => none, id⟩

theorem pkPlanner_sound : PlannerSound pkPlanner pkCollection (fun k => k.length = 1) 0 where
  simplify_holds := Predicate.holds_dropEmptyOr pkCollection
  simplify_orWeight q := (Predicate.orWeight_dropEmptyOr q).le
  simplify_noEmptyOr := Predicate.noEmptyOr_dropEmptyOr
  range_sound pred v h := by
    cases pred with
    | leaf i =>
      obtain rfl : v = [Fin.ofNat i] := by simpa [Collection.holds, Predicate.eval, pkCollection] using h
      simp [pkPlanner, inRange]
    | _ => rfl
  range_tight pred v ht hin := by
    cases pred with
    | leaf i =>
      simp only [pkPlanner, inRange_some_left, Option.all_some, Bool.and_eq_true, decide_eq_true_eq] at hin
      simp [Collection.holds, Predicate.eval, pkCollection, le_antisymm hin.2 hin.1]
    | _ => cases ht
  range_keyPart pred := by cases pred <;> simp [pkPlanner]
  keyPart_prefix _ _ ha hb h := h.eq_of_length (ha.trans hb.symm)
  keyPart_bounds a ha := by
    obtain ⟨x, rfl⟩ := List.length_eq_one.1 ha
    exact ⟨singleton_le_singleton (Fin.zero_le x), singleton_le_singleton (Fin.le_last x)⟩
  values_keyPart e c v hv := by
    simp only [pkCollection] at hv
    split at hv
    · simp only [List.mem_singleton] at hv
      exact hv ▸ ‹_ ∧ _›.2
    · cases hv
  id_values expr k hk hid := by
    have hk1 : k.length = 1 := by
      simp only [pkCollection, List.mem_cons, List.not_mem_nil, or_false] at hk
      rcases hk with rfl | rfl <;> rfl
    simp [pkCollection, show expr.getIndexKey = idPath from hid, hk1]
  simple_size _ _ h := nomatch h
  simple_values _ _ _ h := nomatch h
  compound_size _ _ _ h := nomatch h
  compound_values _ _ _ _ h := nomatch h
  index_keys _ _ _ _ h := nomatch h

/-! ### Meaning preservation is not enough

The `OR` case pushes `AND(OR(rest), NOT(last))` after `simplify()`. Whether that ends depends
on what `simplify()` does, not only on its keeping the predicate's meaning. -/

/-- **A `simplify()` that adds a `NONE` term**: `AND(OR(x), NOT(NONE))`, which holds where `x`
does, becomes `OR(x, NONE)`, which holds there too. -/
def addNone : Predicate → Predicate
  | .and [.or [x], .not .none] => .or [x, .none]
  | q => q

theorem holds_addNone (C : Collection) (q : Predicate) (c : Key) : C.holds (addNone q) c = C.holds q c := by
  unfold addNone
  split <;> simp

/-- With `addNone` for `simplify()`, the `OR` of `ALL` and `NONE` pushes itself again. -/
theorem pushDown_addNone_or : ∀ n, pushDown { pkPlanner with simplify := addNone } n .tableScan (.or [.all, .none]) = none
  | 0 => rfl
  | n + 1 => by
    show (pushDown { pkPlanner with simplify := addNone } n .tableScan .none).bind _ = none
    cases n with
    | zero => rfl
    | succ n => exact congrArg (Option.map _) (pushDown_addNone_or (n + 1))

/-- **`construct_filter_plan` can return no plan although `simplify()` keeps meaning.**
`pkPlanner` meets every assumption. With its `simplify()` replaced by the identity, the `OR` of
one `_id` equality pushes its term, then `AND(OR(), NOT(term))`, whose `AND` case pushes `OR()`
and calls `back()` on its empty term list. With `addNone` in its place, the `OR` of `ALL` and
`NONE` pushes that same `OR` again, without end. -/
theorem constructFilterPlan_returns_no_plan :
    PlannerSound pkPlanner pkCollection (fun k => k.length = 1) 0 ∧
      (∀ fuel, constructFilterPlan { pkPlanner with simplify := id } fuel .tableScan
        (.or [.any (.extPath idPath true false) (.leaf 1)]) = none) ∧
      (∀ q c, pkCollection.holds (addNone q) c = pkCollection.holds q c) ∧
      ∀ fuel, constructFilterPlan { pkPlanner with simplify := addNone } fuel .tableScan (.or [.all, .none]) = none :=
  ⟨pkPlanner_sound, fun fuel => by rcases fuel with _ | _ | _ | n <;> rfl, holds_addNone pkCollection,
    fun fuel => by simp [constructFilterPlan, constructFilterPlanWith, pushDown_addNone_or]⟩

/-! ### `construct_filter_plan` keeps what the filter emits -/

/-- **`construct_filter_plan` returns a plan that emits what the filter emits.** Under the
planner's assumptions, for a source the rewriter can have built (its scans of one index key
bounded by a key of that index) and a predicate with no empty `OR`, some fuel gives a plan,
any more fuel the same plan, and it emits the documents of `FilterPlan(p, q)`, as a multiset. -/
theorem constructFilterPlan_emits_filter {P : Planner} {C : Collection} {keyPart : Key → Prop} {maxFields : Nat}
    (hs : PlannerSound P C keyPart maxFields) {p : Plan} (hkb : p.KeyBounded keyPart) {q : Predicate}
    (hq : q.noEmptyOr = true) :
    ∃ n r, (∀ m, n ≤ m → constructFilterPlan P m p q = some r) ∧ (r.emits C).Perm ((Plan.filter p q).emits C) := by
  obtain ⟨n, _, h⟩ : ∃ n r, pushDown P n p q = some r := by
    by_cases hp : p = .tableScan
    · subst hp
      exact hs.tableScan_terminates q hq
    · exact hs.terminates_of_ne_tableScan hp hkb q
  obtain ⟨r, hr⟩ := constructFilterPlanWith_isSome h
  exact ⟨n, r, fun m hnm => constructFilterPlanWith_mono (fun _ _ _ => pushDown_mono hnm) hr,
    (cfp_ok (fun _ f => hs.pushDown_ok n f) q hkb r hr).1⟩

/-- The `OR` of two `_id` equalities over `pkCollection`: pushed, a union of primary-key lookups. -/
theorem constructFilterPlan_pk_or :
    PlannerSound pkPlanner pkCollection (fun k => k.length = 1) 0 ∧
      Plan.tableScan.KeyBounded (fun k : Key => k.length = 1) ∧
      (Predicate.or [.any (.extPath idPath true false) (.leaf 1), .any (.extPath idPath true false) (.leaf 2)]).noEmptyOr = true ∧
      ∃ n r, (∀ m, n ≤ m → constructFilterPlan pkPlanner m .tableScan
          (.or [.any (.extPath idPath true false) (.leaf 1), .any (.extPath idPath true false) (.leaf 2)]) = some r) ∧
        (r.emits pkCollection).Perm ((Plan.filter .tableScan
          (.or [.any (.extPath idPath true false) (.leaf 1), .any (.extPath idPath true false) (.leaf 2)])).emits pkCollection) :=
  ⟨pkPlanner_sound, (fun _ _ h => nomatch h), rfl,
    constructFilterPlan_emits_filter pkPlanner_sound (by exact fun _ _ h => nomatch h) rfl⟩

example : constructFilterPlan pkPlanner 5 .tableScan
    (.or [.any (.extPath idPath true false) (.leaf 1), .any (.extPath idPath true false) (.leaf 2)]) =
    some (.union
      (.filter (.union (.filter .empty (.and [.not (.any (.extPath idPath true false) (.leaf 1))]))
        (.primaryKeyLookup (some [1]) (some [1]))) (.and [.not (.any (.extPath idPath true false) (.leaf 2))]))
      (.primaryKeyLookup (some [2]) (some [2]))) := by
  rfl

end DocLayer
