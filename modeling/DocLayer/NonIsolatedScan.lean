import DocLayer.PKScan
import DocLayer.NonIsolated
import DocLayer.Frame

/-! # A non-isolated table scan across its segments

`doNonIsolatedRO` runs `TableScanPlan` in segments. When a segment's timer fires,
`stopAndCheckpoint()` cancels `doPKScan`, whose handler sets the scan's split key to
`strinc` of the primary key of the last key it processed, and the next segment scans from
there. That key lies above every key of the documents already sent and at or below every key
of the documents still owed, so the segments together send what one uninterrupted scan sends.

* **`PKEncoded.strinc_le_iff`, `pkScanDocs_resume`** — a scan resumed at `strinc` of the last
  primary key owes exactly what the stopped scan still owed.
* **`PKScan.LastKeyRead`** — `doPKScan`'s `lastKey` is the last key it has processed.
* **`ROScan`** — where the wrapper can be: what it has sent, followed by what the segment's
  scan owes, is what the uninterrupted scan sends; `ROScan.move` is its step lemma.
* **`nonIsolatedRO_tableScan_resumes`** — every run of the wrapper sends a prefix of the
  uninterrupted scan's documents, each once and in order, and all of them before
  `end_of_stream` when every segment delivered a document before its timer fired; each stop
  after a key resumes at `strinc` of its primary key, between the documents sent and those
  owed.

A segment stopped before its scan processed a key has the empty `lastKey`, with no primary key
to decode: the handler writes no split key (`pkSplitKey`), and the next segment scans
nothing. -/

namespace DocLayer

variable {env : Env}

/-! ## Where a stopped table scan resumes -/

/-- **A key that starts with `v` lies below `strinc v`.** -/
theorem lt_strinc_of_prefix {v h k : Key} (hs : strinc v = some h) (hp : v <+: k) : k < h := by
  obtain ⟨p, b, n, rfl, hb, rfl⟩ := strinc_eq_some hs
  obtain ⟨r, rfl⟩ := hp
  have hb1 : b < b + 1 := by
    rw [Fin.lt_def, Fin.val_add_one_of_lt (lt_of_le_of_ne (Fin.le_last b) hb)]
    omega
  simpa using List.Lex.append_left (· < ·)
    (List.Lex.rel hb1 : List.Lex (· < ·) (b :: (List.replicate n 255 ++ r)) [b + 1]) p

/-- **`strinc` of a primary key splits the collection at that document**: a key lies at or above
it exactly when its primary key is greater. -/
theorem PKEncoded.strinc_le_iff (henc : PKEncoded env) {k k0 s : Key} (hk : k ∈ env.table)
    (hk0 : k0 ∈ env.table) (hs : strinc (env.firstItem k0) = some s) :
    s ≤ k ↔ env.firstItem k0 < env.firstItem k := by
  have hpf : ∀ {a b : Key}, a ∈ env.table → b ∈ env.table →
      env.firstItem a <+: env.firstItem b → env.firstItem a = env.firstItem b := fun ha hb h =>
    henc.prefixFree _ (List.mem_map_of_mem _ ha) _ (List.mem_map_of_mem _ hb) h
  have hself : env.firstItem k0 < s := lt_strinc_of_prefix hs (List.prefix_refl _)
  obtain ⟨r, hr⟩ := henc.begins k hk
  constructor
  · intro hsk
    refine lt_of_not_le fun hle => not_lt.2 hsk ?_
    rcases hle.lt_or_eq with hlt | heq
    · calc k = env.firstItem k ++ r := hr.symm
        _ < env.firstItem k0 ++ [] := append_lt_append_of_lt r [] hlt fun h => ne_of_lt hlt (hpf hk hk0 h)
        _ < s := by simpa using hself
    · exact lt_strinc_of_prefix hs (heq ▸ henc.begins k hk)
  · intro hlt
    refine le_of_not_lt fun hks => ne_of_lt hlt (hpf hk0 hk ?_)
    exact prefix_of_lt_strinc hs hlt.le (lt_of_le_of_lt ((le_append _ r).trans_eq hr) hks)

/-- **The keys a segment's table scan reads** when its scan slot is bounded by `[lo, "\xff")`:
what `TableScanPlan::execute` computes from those bounds. -/
def segKeys (env : Env) (lo : Key) : List Key :=
  getDescendants env.table (max allKeysBegin lo) (max (max allKeysBegin lo) (min allKeysEnd allKeysEnd))

/-- A segment reads the keys of the whole range from its lower bound on. -/
theorem segKeys_eq (lo : Key) :
    segKeys env lo = (getDescendants env.table allKeysBegin allKeysEnd).filter fun k => lo ≤ k := by
  unfold segKeys getDescendants
  rw [List.filter_filter]
  refine List.filter_congr fun k _ => ?_
  simp only [min_self, max_le_iff, lt_max_iff, Bool.decide_and, decide_eq_decide]
  by_cases h1 : allKeysBegin ≤ k
  · by_cases h2 : lo ≤ k
    · simp [h1, h2, not_lt.2 (max_le h1 h2)]
    · simp [h2]
  · simp [h1]

/-- **Primary keys rise along a segment's keys.** -/
theorem segKeys_firstItem_le (henc : PKEncoded env) (lo : Key) :
    (segKeys env lo).Pairwise fun a b => env.firstItem a ≤ env.firstItem b := by
  have hmem : ∀ k ∈ segKeys env lo, k ∈ env.table := fun k hk => (List.mem_filter.1 hk).1
  exact List.Pairwise.imp_of_mem (fun ha hb h => henc.firstItem_le (hmem _ ha) (hmem _ hb) h)
    (env.table_sorted.filter _)

/-- **`doPKScan`'s comparison from the primary key `p`**, along keys whose primary keys rise from
`p` on, starts the documents that a fresh scan of the keys with a greater primary key starts. -/
theorem newPKs_of_ge {f : Key → Key} {p : Key} :
    ∀ {l : List Key}, l.Pairwise (fun a b => f a ≤ f b) → (∀ x ∈ l, p ≤ f x) → (∀ x ∈ l, f x ≠ []) →
      newPKs f p l = newPKs f [] (l.filter fun x => p < f x)
  | [], _, _, _ => rfl
  | x :: l, hmono, hge, hne => by
    rw [List.pairwise_cons] at hmono
    by_cases hx : f x = p
    · have hrec := newPKs_of_ge hmono.2 (fun y hy => hx ▸ hmono.1 y hy) (fun y hy => hne y (.tail _ hy))
      simp [newPKs, hx, hrec]
    · have hlt : p < f x := lt_of_le_of_ne (hge x (.head _)) (Ne.symm hx)
      have hall : l.filter (fun y => p < f y) = l :=
        List.filter_eq_self.2 fun y hy => by simpa using hlt.trans_le (hmono.1 y hy)
      simp [newPKs, hx, hlt, hall, hne x (.head _)]

/-- **A table scan resumed at `strinc` of the last primary key it processed owes what it still
owed.** Stopped after processing the keys `c ++ [k]` of its segment, it has sent the documents
those keys start; the scan of the keys from `strinc` of `k`'s primary key owes the others. -/
theorem pkScanDocs_resume (henc : PKEncoded env) {lo k s : Key} {c rest : List Key}
    (hks : segKeys env lo = c ++ k :: rest) (hs : strinc (env.firstItem k) = some s) :
    pkScanDocs env 0 (segKeys env lo) =
      (newPKs env.firstItem [] (c ++ [k])).map (pkDoc env 0) ++ pkScanDocs env 0 (segKeys env s) := by
  have hmem : ∀ lo, ∀ x ∈ segKeys env lo, x ∈ env.table := fun _ x hx => (List.mem_filter.1 hx).1
  have hne : ∀ lo, ∀ x ∈ segKeys env lo, env.firstItem x ≠ [] := fun lo x hx => henc.ne_nil x (hmem lo x hx)
  have hk : k ∈ env.table := hmem lo k (by simp [hks])
  have hlok : lo ≤ k := by
    have hkmem : k ∈ segKeys env lo := by simp [hks]
    rw [segKeys_eq] at hkmem
    simpa using (List.mem_filter.1 hkmem).2
  have hmono := segKeys_firstItem_le henc lo
  rw [hks, List.pairwise_append, List.pairwise_cons] at hmono
  -- the keys from `strinc` of `k`'s primary key are those of the documents after `k`'s
  have hresume : segKeys env s = rest.filter fun x => env.firstItem k < env.firstItem x := by
    calc segKeys env s = (segKeys env lo).filter fun x => env.firstItem k < env.firstItem x := by
          rw [segKeys_eq s, segKeys_eq lo, List.filter_filter]
          refine List.filter_congr fun x hx => ?_
          have hxt : x ∈ env.table := (List.mem_filter.1 hx).1
          simp only [henc.strinc_le_iff hxt hk hs]
          by_cases hlt : env.firstItem k < env.firstItem x
          · have hkx : k < x := lt_of_not_le fun hle => not_le.2 hlt
              (hle.lt_or_eq.elim (henc.firstItem_le hxt hk) fun h => h ▸ le_rfl)
            simp [hlt, hlok.trans hkx.le]
          · simp [hlt]
      _ = rest.filter fun x => env.firstItem k < env.firstItem x := by
          rw [hks, List.filter_append, List.filter_cons, List.filter_eq_nil_iff.2 fun x hx => by
            simpa using hmono.2.2 x hx k (.head _)]
          simp
  rw [pkScanDocs_eq_newPKs 0 (hne lo), pkScanDocs_eq_newPKs 0 (hne s), hresume, hks, List.append_cons,
    newPKs_append, lastPKAfter_snoc, newPKs_of_ge hmono.2.1.2 (fun x hx => hmono.2.1.1 x hx)
      (fun x hx => hne lo x (by simp [hks, hx])), List.map_append]

/-! ## `doPKScan`'s last key -/

/-- **`doPKScan`'s `lastKey` is the last key it has processed**: reading the keys `ks`, it has
processed those before the ones still to read, the key it holds while it waits for a permit
excepted; `lastKey` is the last of them, the empty key before any. -/
def PKScan.LastKeyRead (ks : List Key) (st : PKScan) : Prop :=
  ∃ c, st.lastKey = c.getLast?.getD [] ∧
    match st.wait with
    | .nextKey => ks = c ++ st.kvs
    | .permit k => ks = c ++ k :: st.kvs

/-- **A step of `doPKScan` keeps `lastKey` the last key processed.** -/
theorem PKScan.LastKeyRead.step {ks : List Key} {x y : Exec} {i : Nat} {st st' : PKScan} {ev : Event}
    (hx : (x.actorAt i).isSome) (h : st.LastKeyRead ks) (hy : doPKScan env x i st ev = some y)
    (hst : y.actorAt i = some (.pkScan st')) : st'.LastKeyRead ks := by
  obtain ⟨c, hlast, hks⟩ := h
  obtain ⟨scanId, kvs, lastPK, lastKey, wait⟩ := st
  obtain ⟨a0, ha0⟩ := Option.isSome_iff_exists.1 hx
  simp only at hlast hks
  cases ev <;> cases wait <;> simp only [doPKScan, reduceCtorEq] at hy
  · -- the range read delivers its next key, or ends
    rcases kvs with _ | ⟨k, rest⟩
    · cases hy
      simp [ha0] at hst
    · simp only at hy hks
      by_cases hk : env.firstItem k ≠ lastPK
      · -- a new primary key: the key is held, nothing more processed
        rw [if_pos hk] at hy
        cases hy
        simp only [Exec.setActor_actorAt, if_true, ha0, Option.map_some', Option.some.injEq,
          Actor.pkScan.injEq] at hst
        subst hst
        exact ⟨c, hlast, hks⟩
      · -- the same primary key: the key is processed
        rw [if_neg hk] at hy
        cases hy
        simp only [Exec.setActor_actorAt, if_true, ha0, Option.map_some', Option.some.injEq,
          Actor.pkScan.injEq] at hst
        subst hst
        exact ⟨c ++ [k], by simp, by simpa using hks⟩
  · -- the permit: the held key is processed
    rename_i k
    split at hy <;> cases hy
    simp only [Exec.setActor_actorAt, if_true, Exec.send_actorAt, Exec.takePermit_actorAt, ha0,
      Option.map_some', Option.some.injEq, Actor.pkScan.injEq] at hst
    subst hst
    exact ⟨c ++ [k], by simp, by simpa using hks⟩
  · -- the read fails
    cases hy
    simp [ha0] at hst

/-! ## The split key a stop writes -/

/-- **`strinc` of a non-empty key below `"\xff"` does not assert**: such a key has a byte other
than `\xff`. -/
theorem strinc_isSome_of_lt {v : Key} (hv : v ≠ []) (hlt : v < allKeysEnd) : (strinc v).isSome := by
  unfold strinc
  split
  · rename_i hd
    obtain ⟨b, w, rfl⟩ := List.exists_cons_of_ne_nil hv
    have hb : b = 255 := by
      have := List.dropWhile_eq_nil_iff.1 hd b (by simp)
      simpa using this
    subst hb
    exact absurd hlt (not_lt.2 (le_append [255] w))
  · rfl

/-- **A segment from `"\xff"` reads no key.** -/
theorem segKeys_allKeysEnd : segKeys env allKeysEnd = [] := by
  rw [segKeys_eq, List.filter_eq_nil_iff]
  intro k hk
  have hk' : allKeysBegin ≤ k ∧ k < allKeysEnd := by simpa using (List.mem_filter.1 hk).2
  simpa using hk'.2

/-- **What a primary-key scan owes is below `"\xff"`**: its keys are, and so are their
primary keys. -/
theorem firstItem_lt_allKeysEnd (henc : PKEncoded env) {lo k : Key} (hk : k ∈ segKeys env lo) :
    env.firstItem k < allKeysEnd := by
  rw [segKeys_eq] at hk
  have hk' := (List.mem_filter.1 hk).1
  obtain ⟨r, hr⟩ := henc.begins k (List.mem_filter.1 hk').1
  have hlt : allKeysBegin ≤ k ∧ k < allKeysEnd := by simpa using (List.mem_filter.1 hk').2
  exact lt_of_le_of_lt ((le_append _ r).trans_eq hr) hlt.2

/-- **A stream of documents then possibly an error** has the error only at its end. -/
theorem getElem?_docs_error {ds : List ScanReturned} {ending : Option ErrorCode} {t : Nat} {e : ErrorCode}
    (h : (ds.map Msg.doc ++ (ending.map Msg.error).toList)[t]? = some (.error e)) :
    t = ds.length ∧ ending = some e := by
  rcases Nat.lt_or_ge t ds.length with hlt | hge
  · rw [List.getElem?_append_left (by simpa using hlt)] at h
    simp [List.getElem?_map, List.getElem?_eq_getElem hlt] at h
  · rw [List.getElem?_append_right (by simpa using hge)] at h
    rcases ending with _ | e'
    · simp at h
    · simp only [List.length_map, Option.map_some', Option.toList_some] at h
      rcases hn : t - ds.length with _ | n
      · rw [hn] at h
        simp only [List.getElem?_cons_zero, Option.some.injEq, Msg.error.injEq] at h
        exact ⟨by omega, congrArg some h⟩
      · rw [hn] at h
        simp at h

/-! ## A segment's start and stop -/

/-- **The documents an uninterrupted `TableScanPlan` sends** on a fresh checkpoint: one per
primary key of the collection's keys in `["\x00", "\xff")`, at the first of its keys. -/
def tableScanDocs (env : Env) : List ScanReturned := pkScanDocs env 0 (segKeys env [])

/-- **A segment's start**: `TableScanPlan::execute` on a checkpoint with no operation, whose
first scan slot is bounded by `[lo, "\xff")`, registers `doPKScan` alone over the keys from
`lo` on. -/
theorem tableScan_start_segment {cp : PlanCheckpoint} (hops : cp.ops = []) (hadded : cp.scansAdded = 0)
    {lo split : Key} (hscans : cp.scans = [⟨(lo, allKeysEnd), split⟩]) :
    Exec.start env .tableScan cp = some
      (⟨{ cp with scansAdded := 1, ops := [⟨.pkScan ⟨0, segKeys env lo, [], [], .nextKey⟩, .empty⟩] }, [], 0⟩, 0) := by
  obtain ⟨scans, states, ops, scansAdded, stateAdded, bw, lock⟩ := cp
  simp only at hops hadded hscans
  subst hops hadded hscans
  rfl

/-- **`stopAndCheckpoint()` of a segment**: the table scan's handler writes `strinc` of the
primary key of its last key as the split key, when it has one and that does not assert; the
next checkpoint has no operation and bounds the scan by `[split, "\xff")`. -/
theorem stopAndCheckpoint_segment {cp : PlanCheckpoint} {st : PKScan} {out : Stream} {lo : Key}
    (hops : cp.ops = [⟨.pkScan st, out⟩]) (hscans : cp.scans = [⟨(lo, allKeysEnd), allKeysEnd⟩])
    (hid : st.scanId = 0) :
    (cp.stopAndCheckpoint env).next.ops = [] ∧ (cp.stopAndCheckpoint env).next.scansAdded = 0 ∧
      (cp.stopAndCheckpoint env).next.scans =
        [⟨((pkSplitKey env st.lastKey).getD allKeysEnd, allKeysEnd), allKeysEnd⟩] := by
  obtain ⟨scans, states, ops, scansAdded, stateAdded, bw, lock⟩ := cp
  simp only at hops hscans
  subst hops hscans
  simp only [PlanCheckpoint.stopAndCheckpoint, PlanCheckpoint.stop, PlanCheckpoint.rest, cancelFrom,
    cancelOp, if_true, Bool.or_false]
  cases pkSplitKey env st.lastKey <;>
    simp [splitBoundOne, PlanCheckpoint.splitBound, hid, PlanCheckpoint.new, ScanInfo.default]

theorem peek_of_ops {x : Exec} {a : Actor} {l : List Msg} {t : Nat} (hops : x.cp.ops = [⟨a, ⟨l, t⟩⟩]) :
    x.peek 0 = l[t]? := by
  simp [Exec.peek, Exec.op?, hops, Stream.peek]

/-- **The keys `doPKScan`'s comparison starts documents at are keys it read.** -/
theorem mem_of_mem_newPKs {f : Key → Key} : ∀ {p k : Key} {l : List Key}, k ∈ newPKs f p l → k ∈ l
  | _, _, [], h => h
  | p, k, a :: l, h => by
    unfold newPKs at h
    split at h
    · rcases List.mem_cons.1 h with rfl | h
      exacts [.head _, .tail _ (mem_of_mem_newPKs h)]
    · exact .tail _ (mem_of_mem_newPKs h)

/-- A segment reads keys of the table. -/
theorem mem_table_of_mem_segKeys {lo k : Key} (hk : k ∈ segKeys env lo) : k ∈ env.table :=
  (List.mem_filter.1 hk).1

/-- A segment's keys lie at or above its lower bound. -/
theorem le_of_mem_segKeys {lo k : Key} (hk : k ∈ segKeys env lo) : lo ≤ k := by
  rw [segKeys_eq] at hk
  simpa using (List.mem_filter.1 hk).2

/-- **The uninterrupted scan's documents lie below `"\xff"`**: each is sent at one of the keys
it reads. -/
theorem scanKey_lt_of_mem_tableScanDocs (henc : PKEncoded env) {d : ScanReturned}
    (hd : d ∈ tableScanDocs env) : d.scanKey < allKeysEnd := by
  rw [tableScanDocs, pkScanDocs_eq_newPKs 0 fun k hk => henc.ne_nil k (mem_table_of_mem_segKeys hk)] at hd
  obtain ⟨k, hk, rfl⟩ := List.mem_map.1 hd
  have hk' := mem_of_mem_newPKs hk
  rw [segKeys_eq] at hk'
  have hlt : allKeysBegin ≤ k ∧ k < allKeysEnd := by
    simpa using (List.mem_filter.1 (List.mem_filter.1 hk').1).2
  exact hlt.2

/-- **A table scan resumed at `strinc` of the last key it processed** owes the rest: once it
has processed a key, that split key is written, and the documents of the processed keys
followed by those the resumed scan owes are what the stopped scan owed. Every processed key lies
below the split key. -/
theorem pkScanDocs_resume_last (henc : PKEncoded env) {lo : Key} {c R : List Key}
    (hks : segKeys env lo = c ++ R) (hc : c ≠ []) :
    ∃ s, pkSplitKey env (c.getLast?.getD []) = some s ∧ (∀ k ∈ c, k < s) ∧
      (newPKs env.firstItem [] c).map (pkDoc env 0) ++ pkScanDocs env 0 (segKeys env s) =
        pkScanDocs env 0 (segKeys env lo) := by
  obtain ⟨c, k, rfl⟩ := (List.eq_nil_or_concat c).resolve_left hc
  simp only [List.concat_eq_append] at hks ⊢
  have hk : k ∈ segKeys env lo := by simp [hks]
  have hkt : k ∈ env.table := (List.mem_filter.1 hk).1
  obtain ⟨s, hs⟩ := Option.isSome_iff_exists.1
    (strinc_isSome_of_lt (henc.ne_nil k hkt) (firstItem_lt_allKeysEnd henc hk))
  have hks_s : k < s := lt_strinc_of_prefix hs (henc.begins k hkt)
  have hsorted : (segKeys env lo).Sorted (· < ·) := env.table_sorted.filter _
  rw [hks, List.append_assoc, List.singleton_append] at hsorted
  have hbelow : ∀ k' ∈ c ++ [k], k' < s := fun k' hk' => by
    rcases List.mem_append.1 hk' with hk' | hk'
    · exact ((List.pairwise_append.1 hsorted).2.2 k' hk' k (.head _)).trans hks_s
    · rwa [List.mem_singleton.1 hk']
  have hne : k ≠ [] := fun h => henc.ne_nil k hkt (List.prefix_nil.1 (h ▸ henc.begins k hkt))
  exact ⟨s, by simpa [pkSplitKey, hne] using hs, hbelow,
    (pkScanDocs_resume henc (by simpa using hks : segKeys env lo = c ++ k :: R) hs).symm⟩

/-- **`doPKScan` in its loop has sent the documents of the keys it processed**, the last of
which is its `lastKey`. -/
theorem PKScanRun.lastKey_read {ks : List Key} {st : PKScan} {l : List Msg}
    (hrun : PKScanRun env 0 ks (.pkScan st) l) (hlast : st.LastKeyRead ks) :
    st.scanId = 0 ∧ ∃ c R, ks = c ++ R ∧ st.lastKey = c.getLast?.getD [] ∧
      l = ((newPKs env.firstItem [] c).map (pkDoc env 0)).map .doc := by
  generalize ha : Actor.pkScan st = a at hrun
  obtain ⟨c', hlk, hks'⟩ := hlast
  rcases hrun with ⟨hks⟩ | ⟨hks, -⟩ | _ | _ <;> cases ha
  all_goals
    obtain rfl := List.append_cancel_right (hks'.symm.trans hks)
    exact ⟨rfl, c', _, hks, hlk, rfl⟩

/-! ## The wrapper's invariant -/

/-- **A segment of `doNonIsolatedRO` over `TableScanPlan`**, scanning from `lo`: its only
operation is `doPKScan` over the keys from `lo` on, which has sent `l`, of which the wrapper
took `t`; the wrapper has sent the documents `E` of the earlier segments, below `lo`, then
those `t` messages; and `E` followed by what the segment's scan owes is a prefix of what the
uninterrupted scan sends, all of it when `exact` and whenever the segment reads a key. -/
structure ROSegment (env : Env) (exact : Bool) (r : NonIsolatedRO) (E : List ScanReturned) (lo : Key)
    (a : Actor) (l : List Msg) (t : Nat) : Prop where
  docs : r.docs = 0
  ops : r.inner.cp.ops = [⟨a, ⟨l, t⟩⟩]
  scans : r.inner.cp.scans = [⟨(lo, allKeysEnd), allKeysEnd⟩]
  run : PKScanRun env 0 (segKeys env lo) a l
  lastKey : ∀ st, a = .pkScan st → st.LastKeyRead (segKeys env lo)
  taken : t ≤ l.length
  sent : r.output.sent = E.map .doc ++ l.take t
  owed : E ++ pkScanDocs env 0 (segKeys env lo) <+: tableScanDocs env
  owedAll : exact = true → E ++ pkScanDocs env 0 (segKeys env lo) = tableScanDocs env
  resume : E ++ pkScanDocs env 0 (segKeys env lo) = tableScanDocs env ∨ segKeys env lo = []
  below : ∀ d ∈ E, d.scanKey < lo

/-- **Where `doNonIsolatedRO` over `TableScanPlan` can be**: in a segment, or with its output
ended by an error after a prefix of the uninterrupted scan's documents, all of them when the
error is `end_of_stream` and `exact`. -/
inductive ROScan (env : Env) (exact : Bool) (r : NonIsolatedRO) : Prop
  | segment {E lo a l t} : ROSegment env exact r E lo a l t → ROScan env exact r
  | ended {E e} : r.output.sent = E.map .doc ++ [.error e] → E <+: tableScanDocs env →
      (exact = true → e = .endOfStream → E = tableScanDocs env) → ROScan env exact r

section Moves

variable {exact : Bool} {r : NonIsolatedRO} {E : List ScanReturned} {lo : Key} {a : Actor}
  {l : List Msg} {t : Nat}

/-- **A segment as `TableScanPlan::execute` starts it**, from `lo`, the wrapper having sent
`E`. -/
theorem ROSegment.fresh (hdocs : r.docs = 0)
    (hops : r.inner.cp.ops = [⟨.pkScan ⟨0, segKeys env lo, [], [], .nextKey⟩, .empty⟩])
    (hscans : r.inner.cp.scans = [⟨(lo, allKeysEnd), allKeysEnd⟩]) (hsent : r.output.sent = E.map .doc)
    (howed : E ++ pkScanDocs env 0 (segKeys env lo) <+: tableScanDocs env)
    (hall : exact = true → E ++ pkScanDocs env 0 (segKeys env lo) = tableScanDocs env)
    (hres : E ++ pkScanDocs env 0 (segKeys env lo) = tableScanDocs env ∨ segKeys env lo = [])
    (hbelow : ∀ d ∈ E, d.scanKey < lo) :
    ROSegment env exact r E lo (.pkScan ⟨0, segKeys env lo, [], [], .nextKey⟩) [] 0 where
  docs := hdocs
  ops := hops
  scans := hscans
  run := by simpa using @PKScanRun.reading env 0 (segKeys env lo) [] (segKeys env lo) [] rfl
  lastKey := fun _ h => by cases h; exact ⟨[], rfl, rfl⟩
  taken := le_rfl
  sent := by simp [hsent]
  owed := howed
  owedAll := hall
  resume := hres
  below := hbelow

/-- **The wrapper's first segment** scans the whole collection. -/
theorem ROScan.start {permits : Nat} {r0 : NonIsolatedRO}
    (h0 : NonIsolatedRO.start env .tableScan permits = some r0) : ROScan env exact r0 := by
  have hs : Exec.start env .tableScan (PlanCheckpoint.new permits) = some (⟨{ PlanCheckpoint.new permits with
      scans := [ScanInfo.default], scansAdded := 1,
      ops := [⟨.pkScan ⟨0, segKeys env [], [], [], .nextKey⟩, .empty⟩] }, [], 0⟩, 0) := rfl
  rw [NonIsolatedRO.start, hs] at h0
  cases h0
  exact .segment (ROSegment.fresh (E := []) rfl rfl rfl rfl (by simp [tableScanDocs]) (by simp [tableScanDocs])
    (.inl rfl) nofun)

/-- **A step of the segment's scan** keeps the segment: `doPKScan` appends to its output,
keeps `lastKey` the last key processed, and leaves the checkpoint's scans alone. -/
theorem ROSegment.inner (h : ROSegment env exact r E lo a l t) {i : Nat} {ev : Event} {y : Exec}
    (hy : r.inner.step env i ev = some y) : ∃ a' l', ROSegment env exact { r with inner := y } E lo a' l' t := by
  rcases i with _ | i
  swap
  · simp [Exec.step, Exec.op?, h.ops] at hy
  obtain ⟨st, rfl⟩ := h.run.actor.resolve_right <| by
    rintro rfl
    simp [Exec.step, Exec.op?, h.ops] at hy
  have hpk : doPKScan env r.inner 0 st ev = some y := by simpa [Exec.step, Exec.op?, h.ops] using hy
  obtain ⟨a', ms, hops', hrun', -⟩ := PKScanRun.step h.ops h.run hpk
  refine ⟨a', l ++ ms, h.docs, hops', (step_frame hy).scans.trans h.scans, hrun', ?_, ?_, ?_, h.owed, h.owedAll,
    h.resume, h.below⟩
  · rintro st' rfl
    exact (h.lastKey st rfl).step (by simp [Exec.actorAt, Exec.op?, h.ops]) hpk
      (by simp [Exec.actorAt, Exec.op?, hops'])
  · simpa using Nat.le_add_right_of_le h.taken
  · simpa [List.take_append_of_le_length h.taken] using h.sent

/-- **The wrapper passes on a document of the segment's scan**, one message more taken. -/
theorem ROSegment.next_doc (h : ROSegment env exact r E lo a l t) {d : ScanReturned}
    (hp : r.inner.peek r.docs = some (.doc d)) :
    ROSegment env exact
      { r with inner := (r.inner.popInput r.docs).releasePermit, output := r.output.send (.doc d) }
      E lo a l (t + 1) := by
  rw [h.docs, peek_of_ops h.ops] at hp
  refine ⟨h.docs, by simp [Exec.releasePermit, Exec.popInput, h.docs, h.ops, Stream.pop], h.scans, h.run,
    h.lastKey, (List.getElem?_eq_some_iff.1 hp).1, ?_, h.owed, h.owedAll, h.resume, h.below⟩
  simp [h.sent, take_succ_of_getElem? hp]

/-- **The wrapper passes on the error that ended the segment's scan**, and its output ends. -/
theorem ROSegment.next_error (henc : PKEncoded env) (h : ROSegment env exact r E lo a l t) {e : ErrorCode}
    (hp : r.inner.peek r.docs = some (.error e)) :
    ROScan env exact { r with inner := r.inner.stop env, output := r.output.send (.error e) } := by
  rw [h.docs, peek_of_ops h.ops] at hp
  obtain ⟨n, ending, hl, hend⟩ := h.run.sent fun k hk => henc.ne_nil k (List.mem_filter.1 hk).1
  rw [hl] at hp
  obtain ⟨ht, rfl⟩ := getElem?_docs_error hp
  refine .ended (E := E ++ (pkScanDocs env 0 (segKeys env lo)).take n) (e := e) ?_
    (((List.prefix_append_right_inj E).2 (List.take_prefix n _)).trans h.owed) fun hx he => ?_
  · simp [h.sent, hl, ht]
  · rw [hend (congrArg some he), List.take_length]
    exact h.owedAll hx

/-- **Where a segment stopped after processing a key resumes**: at `strinc` of the primary key
of `doPKScan`'s `lastKey`. The wrapper has sent documents only, which lie below it; the other
documents of the uninterrupted scan are what a scan from it owes, and lie at or above it. -/
theorem ROSegment.resumes (henc : PKEncoded env) {st : PKScan} (h : ROSegment env exact r E lo (.pkScan st) l t)
    (hq : r.inner.quiescent r.docs = true) (hlk : st.lastKey ≠ []) :
    ∃ s, pkSplitKey env st.lastKey = some s ∧ r.output.sent = r.output.docs.map .doc ∧
      tableScanDocs env = r.output.docs ++ pkScanDocs env 0 (segKeys env s) ∧
      (∀ d ∈ r.output.docs, d.scanKey < s) ∧ ∀ d ∈ pkScanDocs env 0 (segKeys env s), s ≤ d.scanKey := by
  obtain ⟨hdocs, hops, -, hrun, hlast, htaken, hsent, -, -, hres, hbelow⟩ := h
  have ht : t = l.length := by
    simp [Exec.quiescent, hdocs, peek_of_ops hops] at hq
    omega
  subst ht
  rw [List.take_length] at hsent
  obtain ⟨-, c, R, hks, hlk', rfl⟩ := hrun.lastKey_read (hlast st rfl)
  have hc : c ≠ [] := by
    rintro rfl
    exact hlk hlk'
  obtain ⟨s, hsplit, hlt, heq⟩ := pkScanDocs_resume_last henc hks hc
  have hout : r.output.docs = E ++ (newPKs env.firstItem [] c).map (pkDoc env 0) := by
    show docsOf r.output.sent = _
    rw [hsent, docsOf_append, docsOf_map_doc, docsOf_map_doc]
  obtain ⟨k0, hk0⟩ := List.exists_mem_of_ne_nil c hc
  have hk0' : k0 ∈ segKeys env lo := by simp [hks, hk0]
  have hlo : lo < s := lt_of_le_of_lt (le_of_mem_segKeys hk0') (hlt k0 hk0)
  have hne : ∀ lo, ∀ k ∈ segKeys env lo, env.firstItem k ≠ [] :=
    fun _ k hk => henc.ne_nil k (mem_table_of_mem_segKeys hk)
  refine ⟨s, hlk' ▸ hsplit, by rw [hout, hsent, List.map_append], ?_, fun d hd => ?_, fun d hd => ?_⟩
  · rcases hres with hres | hres
    · rw [hout, List.append_assoc, heq, hres]
    · simp [hres] at hks
      exact absurd hks.1 hc
  · rcases List.mem_append.1 (hout ▸ hd) with hd | hd
    · exact (hbelow d hd).trans hlo
    · obtain ⟨k, hk, rfl⟩ := List.mem_map.1 hd
      exact hlt k (mem_of_mem_newPKs hk)
  · rw [pkScanDocs_eq_newPKs 0 (hne s)] at hd
    obtain ⟨k, hk, rfl⟩ := List.mem_map.1 hd
    exact le_of_mem_segKeys (mem_of_mem_newPKs hk)

/-- **The segment's timer fires**: `stopAndCheckpoint()`, then the next segment from the split
key. The wrapper has sent all the stopped scan sent, and what the stopped scan owed is those
documents followed by what the next one owes. A segment stopped before it delivered a
document is lossy: the next segment scans nothing. -/
theorem ROSegment.timeout (henc : PKEncoded env)
    (h : ROSegment env exact r E lo a l t) (hq : r.inner.quiescent r.docs = true)
    (hend : r.output.ended = false) (hstop : exact = true → r.inner.delivered r.docs ≠ [])
    {s : Exec × Nat} (hs : Exec.start env .tableScan (r.inner.cp.stopAndCheckpoint env).next = some s) :
    ROScan env exact { r with inner := s.1, docs := s.2 } := by
  -- the wrapper has taken all the scan sent, and none of it ended the scan
  have ht : t = l.length := by
    have := h.taken
    simp [Exec.quiescent, h.docs, peek_of_ops h.ops] at hq
    omega
  have hsent : r.output.sent = E.map .doc ++ l := by rw [h.sent, ht, List.take_length]
  obtain ⟨st, rfl⟩ := h.run.actor.resolve_right <| by
    rintro rfl
    cases h.run <;> simp [Stream.ended, hsent] at hend
  obtain ⟨hid, c, R, hks, hlk, rfl⟩ := h.run.lastKey_read (h.lastKey st rfl)
  obtain ⟨hops', hadded', hscans'⟩ := @stopAndCheckpoint_segment env _ _ _ _ h.ops h.scans hid
  generalize hsp : (pkSplitKey env st.lastKey).getD allKeysEnd = split at hscans'
  rw [tableScan_start_segment hops' hadded' hscans'] at hs
  cases hs
  rcases eq_or_ne c [] with rfl | hc
  · -- stopped before its first key: no split key, and the next segment scans nothing
    obtain rfl : split = allKeysEnd := by simp [← hsp, hlk, pkSplitKey]
    have hE : E <+: tableScanDocs env := (List.prefix_append E _).trans h.owed
    refine .segment (ROSegment.fresh rfl rfl hscans' (by simpa [newPKs] using hsent) ?_ (fun hx => ?_)
      (.inr segKeys_allKeysEnd) fun d hd => scanKey_lt_of_mem_tableScanDocs henc (hE.subset hd))
    · rwa [segKeys_allKeysEnd, show pkScanDocs env 0 [] = [] from rfl, List.append_nil]
    · refine absurd ?_ (hstop hx)
      simp only [Exec.delivered, Exec.op?, h.docs, h.ops, List.getElem?_cons_zero, Option.map_some',
        Option.getD_some]
      rfl
  · -- resumed at `strinc` of the last primary key sent
    have hne : st.lastKey ≠ [] := fun h0 => by
      obtain ⟨s, hsplit, -⟩ := pkScanDocs_resume_last henc hks hc
      rw [← hlk, h0] at hsplit
      simp [pkSplitKey] at hsplit
    obtain ⟨s, hsplit, hsent', htab, hbelow, -⟩ := h.resumes henc hq hne
    obtain rfl : split = s := by simp [← hsp, hsplit]
    exact .segment (ROSegment.fresh rfl rfl hscans' hsent' (htab ▸ List.prefix_refl _) (fun _ => htab.symm)
      (.inl htab.symm) hbelow)

/-- **A move of the wrapper keeps it where `ROScan` says**; when `exact`, provided the timer
fires only after the segment delivered a document. -/
theorem ROScan.move (henc : PKEncoded env) {r' : NonIsolatedRO}
    {m : WrapperMove} (h : ROScan env exact r) (hm : r.move env .tableScan m = some r')
    (hstop : exact = true → m = .timeout → r.inner.delivered r.docs ≠ []) : ROScan env exact r' := by
  by_cases hend : r.output.ended = true
  · simp [NonIsolatedRO.move, hend] at hm
  unfold NonIsolatedRO.move at hm
  rw [if_neg hend] at hm
  rcases h with ⟨h⟩ | ⟨hsent, -, -⟩
  swap
  · simp [Stream.ended, hsent] at hend
  rcases m with ⟨i, ev⟩ | _ | _ | _ | _ <;> dsimp only at hm
  · -- a step of the segment's scan
    obtain ⟨y, hy, rfl⟩ := Option.map_eq_some'.1 hm
    obtain ⟨a', l', h'⟩ := h.inner hy
    exact .segment h'
  · -- the next message of the subplan's output
    split at hm
    · cases hm
      exact .segment (h.next_doc ‹_›)
    · cases hm
      exact h.next_error henc ‹_›
    · cases hm
  · -- the timer
    split at hm
    · obtain ⟨s, hs, rfl⟩ := Option.map_eq_some'.1 hm
      exact h.timeout henc ‹_› (by simpa using hend) (fun hx => hstop hx rfl) hs
    · cases hm
  all_goals cases hm

end Moves

/-- **Whether every segment delivered a document before its timer fired**, along the moves
`ms` from `r`. -/
def NonIsolatedRO.stopsAfterFirstDoc (env : Env) (subPlan : Plan) : NonIsolatedRO → List WrapperMove → Bool
  | _, [] => true
  | r, m :: ms => (m != .timeout || !(r.inner.delivered r.docs).isEmpty) &&
      match r.move env subPlan m with
      | some r' => stopsAfterFirstDoc env subPlan r' ms
      | none => true

/-- **Every run of the wrapper stays where `ROScan` says.** -/
theorem ROScan.run (henc : PKEncoded env) {exact : Bool}
    {ms : List WrapperMove} : ∀ {r r' : NonIsolatedRO}, ROScan env exact r →
      r.run env .tableScan ms = some r' →
      (exact = true → r.stopsAfterFirstDoc env .tableScan ms = true) → ROScan env exact r' := by
  induction ms with
  | nil =>
    intro r r' h hr _
    cases hr
    exact h
  | cons m ms ih =>
    intro r r' h hr hstop
    obtain ⟨r1, hm, hr1⟩ := Option.bind_eq_some.1 hr
    have hstep : exact = true → (m = .timeout → r.inner.delivered r.docs ≠ []) ∧
        r1.stopsAfterFirstDoc env .tableScan ms = true := fun hx => by
      simpa [NonIsolatedRO.stopsAfterFirstDoc, hm, imp_iff_not_or] using hstop hx
    exact ih (h.move henc hm fun hx => (hstep hx).1) hr1 fun hx => (hstep hx).2

/-- **A prefix of a stream of documents then possibly an error** is the documents of a prefix,
or all of it. -/
theorem take_docs_error (ds : List ScanReturned) (ending : Option ErrorCode) (t : Nat) :
    (ds.map Msg.doc ++ (ending.map Msg.error).toList).take t = (ds.take t).map Msg.doc ∨
      (ds.map Msg.doc ++ (ending.map Msg.error).toList).take t = ds.map Msg.doc ++ (ending.map Msg.error).toList := by
  by_cases ht : t ≤ ds.length
  · left
    rw [List.take_append_of_le_length (by simpa using ht), List.map_take]
  · right
    rw [List.take_append_eq_append_take, List.take_of_length_le (by simp; omega),
      List.take_of_length_le (by cases ending <;> simp; omega)]

/-- **What the wrapper has sent**, wherever `ROScan` puts it: the documents of a prefix of
what the uninterrupted scan sends, then possibly an error, `end_of_stream` only after all of
them when `exact`. -/
theorem ROScan.sent (henc : PKEncoded env) {exact : Bool} {r : NonIsolatedRO} (h : ROScan env exact r) :
    ∃ X ending, r.output.sent = X.map .doc ++ (ending.map .error).toList ∧ X <+: tableScanDocs env ∧
      (exact = true → ending = some .endOfStream → X = tableScanDocs env) := by
  rcases h with @⟨E, lo, a, l, t, h⟩ | @⟨E, e, hsent, hpre, hall⟩
  · obtain ⟨n, ending, hl, hend⟩ := h.run.sent fun k hk => henc.ne_nil k (List.mem_filter.1 hk).1
    have hpre : ∀ k, E ++ (pkScanDocs env 0 (segKeys env lo)).take k <+: tableScanDocs env := fun k =>
      ((List.prefix_append_right_inj E).2 (List.take_prefix k _)).trans h.owed
    rcases take_docs_error ((pkScanDocs env 0 (segKeys env lo)).take n) ending t with ht | ht <;>
      rw [← hl] at ht
    · -- only documents taken
      refine ⟨E ++ ((pkScanDocs env 0 (segKeys env lo)).take n).take t, none, by simp [h.sent, ht], ?_, by simp⟩
      rw [List.take_take]
      exact hpre _
    · -- all taken, the error included
      refine ⟨E ++ (pkScanDocs env 0 (segKeys env lo)).take n, ending, by rw [h.sent, ht, hl]; simp, hpre n,
        fun hx he => ?_⟩
      rw [hend he, List.take_length]
      exact h.owedAll hx
  · exact ⟨E, some e, by simp [hsent], hpre, fun hx he => hall hx (Option.some.inj he)⟩

/-- **`doNonIsolatedRO` over `TableScanPlan` refines the uninterrupted scan.** Whatever its
moves, the wrapper has sent the documents of a prefix of what one uninterrupted scan of an
encoded collection sends, each once and in order, then possibly an error; when every segment
delivered a document before its timer fired, `end_of_stream` comes only after all of them. A
stop after the segment's scan processed a key resumes the scan at `strinc` of that key's
primary key, which lies above every document sent and at or below every document still
owed. -/
theorem nonIsolatedRO_tableScan_resumes (henc : PKEncoded env)
    {permits : Nat} {r0 r : NonIsolatedRO} {ms : List WrapperMove}
    (h0 : NonIsolatedRO.start env .tableScan permits = some r0) (h : r0.run env .tableScan ms = some r) :
    ((tableScanDocs env).map ScanReturned.doc).Nodup ∧
      (∃ X ending, r.output.sent = X.map .doc ++ (ending.map .error).toList ∧ X <+: tableScanDocs env ∧
        (r0.stopsAfterFirstDoc env .tableScan ms = true → ending = some .endOfStream →
          X = tableScanDocs env)) ∧
      ∀ st r', r.inner.actorAt r.docs = some (.pkScan st) → st.lastKey ≠ [] →
        r.move env .tableScan .timeout = some r' →
        ∃ s, strinc (env.firstItem st.lastKey) = some s ∧
          r'.inner.cp.scans = [⟨(s, allKeysEnd), allKeysEnd⟩] ∧
          ∃ owed, tableScanDocs env = r.output.docs ++ owed ∧
            (∀ d ∈ r.output.docs, d.scanKey < s) ∧ ∀ d ∈ owed, s ≤ d.scanKey := by
  refine ⟨pkScanDocs_nodup henc, ?_, fun st r' hst hlk hm => ?_⟩
  · by_cases hst : r0.stopsAfterFirstDoc env .tableScan ms = true
    · obtain ⟨X, ending, hs, hpre, hall⟩ :=
        ROScan.sent henc (ROScan.run henc (ROScan.start h0) h fun _ => hst : ROScan env true r)
      exact ⟨X, ending, hs, hpre, fun _ => hall rfl⟩
    · obtain ⟨X, ending, hs, hpre, -⟩ :=
        ROScan.sent henc (ROScan.run henc (ROScan.start h0) h nofun : ROScan env false r)
      exact ⟨X, ending, hs, hpre, fun h => absurd h hst⟩
  -- the timer fires in a segment: its scan is stopped and the next segment starts
  unfold NonIsolatedRO.move at hm
  split at hm
  · cases hm
  dsimp only at hm
  split at hm
  swap
  · cases hm
  rename_i hend hq
  obtain ⟨s', hs, rfl⟩ := Option.map_eq_some'.1 hm
  rcases (ROScan.run henc (ROScan.start h0) h nofun : ROScan env false r) with ⟨hseg⟩ | ⟨hsent, -, -⟩
  swap
  · simp [Stream.ended, hsent] at hend
  obtain rfl : _ = Actor.pkScan st := by simpa [Exec.actorAt, Exec.op?, hseg.docs, hseg.ops] using hst
  obtain ⟨s, hsplit, -, htab, hbelow, habove⟩ := hseg.resumes henc hq hlk
  obtain ⟨hops', hadded', hscans'⟩ := @stopAndCheckpoint_segment env _ _ _ _ hseg.ops hseg.scans
    (hseg.run.lastKey_read (hseg.lastKey st rfl)).1
  rw [hsplit, Option.getD_some] at hscans'
  rw [tableScan_start_segment hops' hadded' hscans'] at hs
  cases hs
  exact ⟨s, by simpa [pkSplitKey, hlk] using hsplit, hscans', _, htab, hbelow, habove⟩

/-- The first segment sends the first document and reads its second key; the timer fires; the
second segment sends the other document and ends. -/
def twoDocMoves : List WrapperMove :=
  [.inner 0 .input, .inner 0 .complete, .next, .inner 0 .input, .timeout,
    .inner 0 .input, .inner 0 .complete, .next, .inner 0 .input, .next]

theorem nonIsolatedRO_tableScan_twoDocs :
    ∃ r0 r, NonIsolatedRO.start twoKeyDocEnv .tableScan 10 = some r0 ∧
      r0.run twoKeyDocEnv .tableScan twoDocMoves = some r ∧
      r0.stopsAfterFirstDoc twoKeyDocEnv .tableScan twoDocMoves = true ∧
      ((tableScanDocs twoKeyDocEnv).map ScanReturned.doc).Nodup ∧
      (∃ X ending, r.output.sent = X.map .doc ++ (ending.map .error).toList ∧
        X <+: tableScanDocs twoKeyDocEnv ∧
        (r0.stopsAfterFirstDoc twoKeyDocEnv .tableScan twoDocMoves = true → ending = some .endOfStream →
          X = tableScanDocs twoKeyDocEnv)) ∧
      ∀ st r', r.inner.actorAt r.docs = some (.pkScan st) → st.lastKey ≠ [] →
        r.move twoKeyDocEnv .tableScan .timeout = some r' →
        ∃ s, strinc (twoKeyDocEnv.firstItem st.lastKey) = some s ∧
          r'.inner.cp.scans = [⟨(s, allKeysEnd), allKeysEnd⟩] ∧
          ∃ owed, tableScanDocs twoKeyDocEnv = r.output.docs ++ owed ∧
            (∀ d ∈ r.output.docs, d.scanKey < s) ∧ ∀ d ∈ owed, s ≤ d.scanKey :=
  ⟨_, _, rfl, rfl, rfl, nonIsolatedRO_tableScan_resumes twoKeyDocEnv_pkEncoded rfl rfl⟩

example : ((NonIsolatedRO.start twoKeyDocEnv .tableScan 10).bind fun r0 =>
    r0.run twoKeyDocEnv .tableScan twoDocMoves).map (·.output.sent) =
      some ((tableScanDocs twoKeyDocEnv).map .doc ++ [.error .endOfStream]) := rfl

/- A timer that fires before the first key: the split key stays `"\xff"`, and the second
segment ends at once. -/
example : ((NonIsolatedRO.start twoKeyDocEnv .tableScan 10).bind fun r0 =>
    r0.run twoKeyDocEnv .tableScan [.timeout, .inner 0 .input, .next]).map (·.output.sent) =
      some [.error .endOfStream] := rfl

end DocLayer
