import DocLayer.LastEntry
import DocLayer.Execute
import DocLayer.Run
import Mathlib.Data.List.SplitBy

/-! # What a primary-key scan emits

`doPKScan` reads the keys `getDescendants` returns for its range and compares each key's
primary key (`DataKey::decode_item(key, 0)`) with the previous key's: a new primary key starts
a document, sent under a permit at that key. So it sends one document per maximal run of keys
sharing a primary key, at the run's first key. When the keys begin with their document's
encoded primary key and no encoded primary key is a proper prefix of another, the primary
keys rise along the range: each document with a key in the range is sent once.

* **`pkScanDocs`** — the documents a scan owes: one per maximal run (`List.splitBy`) of keys
  sharing a primary key, at the run's first key.
* **`newPKs`** — the keys at which the scan's comparison sees a new primary key;
  `pkScanDocs_eq_newPKs` says they are the runs' first keys.
* **`PKScanRun`** — where `doPKScan` can be, with what it has sent; `pkScanRun_of_reachable`
  carries it over every run.
* **`PKEncoded`** — the keys' encoding; `pkScanDocs_nodup` and `pkScanDocs_covers` are what it
  gives.
* **`pkScanOwed`, `pkScan_soleProducer`** — all the scan owes, and the step facts from which
  `SoleInv.produces` gives a run sending it.
* **`pkScan_emits_each_document_once`** — every run of a primary-key scan sends a prefix of
  `pkScanDocs`, all of it once it ends with `end_of_stream`, and from every state in which the
  read has not failed a run sends all of it. -/

namespace DocLayer

variable {env : Env}

/-! ## The documents a primary-key scan owes -/

/-- **The document scan `s` sends at key `k`**: the sub-context of `k`'s primary key, with `k`
as its scan key. -/
def pkDoc (env : Env) (s : Nat) (k : Key) : ScanReturned := ⟨.stored (env.firstItem k), s, k⟩

/-- **The maximal runs of keys sharing a primary key**, in key order. -/
def pkRuns (env : Env) (ks : List Key) : List (List Key) :=
  ks.splitBy fun a b => env.firstItem a == env.firstItem b

/-- **What a primary-key scan of scan `s` over the keys `ks` owes**: one document per maximal
run of keys sharing a primary key, at the run's first key. -/
def pkScanDocs (env : Env) (s : Nat) (ks : List Key) : List ScanReturned :=
  (pkRuns env ks).filterMap fun run => run.head?.map (pkDoc env s)

/-- **The keys at which `doPKScan` sees a new primary key**, the previous key's being `p`: those
whose primary key differs from the key before. -/
def newPKs (f : Key → Key) : Key → List Key → List Key
  | _, [] => []
  | p, k :: ks => if f k ≠ p then k :: newPKs f (f k) ks else newPKs f p ks

/-- **The primary key `doPKScan` holds after the keys `c`**: the last one's, or `p` before any. -/
def lastPKAfter (f : Key → Key) (p : Key) (c : List Key) : Key := (c.getLast?.map f).getD p

section Runs

variable {f : Key → Key}

@[simp] theorem lastPKAfter_nil (p : Key) : lastPKAfter f p [] = p := rfl

@[simp] theorem lastPKAfter_cons (p a : Key) (c : List Key) :
    lastPKAfter f p (a :: c) = lastPKAfter f (f a) c := by
  simp only [lastPKAfter, List.getLast?_cons]
  cases c.getLast? <;> rfl

@[simp] theorem lastPKAfter_snoc (p k : Key) (c : List Key) : lastPKAfter f p (c ++ [k]) = f k := by
  simp [lastPKAfter]

theorem newPKs_append : ∀ (p : Key) (c d : List Key),
    newPKs f p (c ++ d) = newPKs f p c ++ newPKs f (lastPKAfter f p c) d
  | p, [], d => rfl
  | p, a :: c, d => by
    by_cases h : f a = p
    · simp [newPKs, h, newPKs_append p c d]
    · simp [newPKs, h, newPKs_append (f a) c d]

theorem newPKs_snoc (p k : Key) (c : List Key) :
    newPKs f p (c ++ [k]) = newPKs f p c ++ if f k ≠ lastPKAfter f p c then [k] else [] := by
  rw [newPKs_append]
  by_cases h : f k = lastPKAfter f p c <;> simp [newPKs, h]

theorem or_some_eq_getD {α : Type} (o : Option α) (a : α) : o.or (some a) = some (o.getD a) := by
  cases o <;> rfl

/-- **`List.splitBy`'s loop, read at the runs' first keys**: the groups done, the head of the
group being built (`g`, reversed, then `a`), then a key at each change of primary key. -/
theorem splitBy_loop_heads :
    ∀ (l : List Key) (a : Key) (g : List Key) (gs : List (List Key)),
      (List.splitBy.loop (fun a b => f a == f b) l a g gs).filterMap List.head? =
        gs.reverse.filterMap List.head? ++ g.getLast?.getD a :: newPKs f (f a) l
  | [], a, g, gs => by simp [List.splitBy.loop, or_some_eq_getD, newPKs]
  | b :: l, a, g, gs => by
    by_cases h : f a = f b
    · have hab : (f a == f b) = true := by simp [h]
      simp [List.splitBy.loop, hab, splitBy_loop_heads l b (a :: g) gs, newPKs, h, List.getLast?_cons]
    · have hab : (f a == f b) = false := by simp [h]
      simp [List.splitBy.loop, hab, splitBy_loop_heads l b [] _, or_some_eq_getD, newPKs, Ne.symm h]

end Runs

/-- **The runs start where the primary key changes**: a scan owes, at the first key, a document,
and then one at each key whose primary key differs from the key before. -/
theorem pkScanDocs_cons (s : Nat) (k : Key) (ks : List Key) :
    pkScanDocs env s (k :: ks) = (k :: newPKs env.firstItem (env.firstItem k) ks).map (pkDoc env s) := by
  rw [pkScanDocs, ← List.map_filterMap, pkRuns, List.splitBy, splitBy_loop_heads]
  rfl

/-- **The documents a scan owes are those `doPKScan`'s comparison starts**, when no key has an
empty primary key: the first key's differs from the initial `lastPK`. -/
theorem pkScanDocs_eq_newPKs (s : Nat) {ks : List Key} (hne : ∀ k ∈ ks, env.firstItem k ≠ []) :
    pkScanDocs env s ks = (newPKs env.firstItem [] ks).map (pkDoc env s) := by
  cases ks with
  | nil => rfl
  | cons k ks => simp [pkScanDocs_cons, newPKs, hne k (by simp)]

/-! ## Where `doPKScan` can be -/

/-- **Where `doPKScan` of scan `s` over the keys `ks` can be**, with the messages it has sent:
reading after the keys `c`, having sent the documents their new primary keys start; holding
the next key `k`, whose primary key is new, while it waits for a permit; finished after all
the keys and `end_of_stream`; or finished after a read failed. -/
inductive PKScanRun (env : Env) (s : Nat) (ks : List Key) : Actor → List Msg → Prop
  | reading {c kvs : List Key} {lastKey : Key} : ks = c ++ kvs →
      PKScanRun env s ks (.pkScan ⟨s, kvs, lastPKAfter env.firstItem [] c, lastKey, .nextKey⟩)
        (((newPKs env.firstItem [] c).map (pkDoc env s)).map .doc)
  | holding {c kvs : List Key} {k lastKey : Key} : ks = c ++ k :: kvs →
      env.firstItem k ≠ lastPKAfter env.firstItem [] c →
      PKScanRun env s ks (.pkScan ⟨s, kvs, env.firstItem k, lastKey, .permit k⟩)
        (((newPKs env.firstItem [] c).map (pkDoc env s)).map .doc)
  | ended :
      PKScanRun env s ks .finished (((newPKs env.firstItem [] ks).map (pkDoc env s)).map .doc ++
        [.error .endOfStream])
  | failed {c kvs : List Key} : ks = c ++ kvs →
      PKScanRun env s ks .finished (((newPKs env.firstItem [] c).map (pkDoc env s)).map .doc ++
        [.error .retryable])

/-- **Everything `doPKScan` of scan `s` over the keys `ks` owes**: the documents its comparison
starts, in key order, then `end_of_stream`. -/
def pkScanOwed (env : Env) (s : Nat) (ks : List Key) : List Msg :=
  ((newPKs env.firstItem [] ks).map (pkDoc env s)).map .doc ++ [.error .endOfStream]

/-- **The moves `doPKScan` needs at most before its output ends**, one more counted for each
message it sends: four for each key it has not read, three for the one it holds, two for
`end_of_stream`. -/
def pkMoves : Actor → Nat
  | .pkScan st => 4 * st.kvs.length + 3 * st.wait.pending.length + 2
  | _ => 0

section Step

variable {s : Nat} {ks : List Key} {x y : Exec} {l : List Msg} {t : Nat}

theorem pkScan_isPrefix {c r : List Key} (h : ks = c ++ r) :
    ((newPKs env.firstItem [] c).map (pkDoc env s)).map Msg.doc <+: pkScanOwed env s ks := by
  rw [pkScanOwed, h, newPKs_append, List.map_append, List.map_append, List.append_assoc]
  exact List.prefix_append _ _

/-- `doPKScan` is in its loop or has returned. -/
theorem PKScanRun.actor {a : Actor} (h : PKScanRun env s ks a l) : (∃ st, a = .pkScan st) ∨ a = .finished := by
  cases h <;> simp

/-- **A step of `doPKScan`** (the only operation) stays in its states and only appends to its
output; it takes a permit with each document it sends, needs fewer moves after it, and, unless
its read failed, keeps its output a prefix of what it owes. -/
theorem PKScanRun.step {st : PKScan} {ev : Event} (hops : x.cp.ops = [⟨.pkScan st, ⟨l, t⟩⟩])
    (h : PKScanRun env s ks (.pkScan st) l) (hy : doPKScan env x 0 st ev = some y) :
    ∃ a ms, y.cp.ops = [⟨a, ⟨l ++ ms, t⟩⟩] ∧ PKScanRun env s ks a (l ++ ms) ∧
      y.cp.flowControlLock.active = x.cp.flowControlLock.active + (docsOf ms).length ∧
      pkMoves a + ms.length < pkMoves (.pkScan st) ∧
      (ev ≠ .fail → l ++ ms <+: pkScanOwed env s ks) := by
  generalize ha : Actor.pkScan st = a at h
  cases h with
  | reading hks =>
    rename_i c kvs lastKey
    cases ha
    cases ev <;> simp only [doPKScan, reduceCtorEq] at hy
    · -- the range read delivers its next key, or ends
      rcases kvs with _ | ⟨k, kvs⟩ <;> simp only [Option.some.injEq] at hy
      · subst hy
        obtain rfl : ks = c := by simpa using hks
        exact ⟨.finished, [.error .endOfStream], by simp [Exec.setActor, Exec.send, hops, Stream.send],
          .ended, by simp [Exec.setActor, Exec.send], by simp [pkMoves, ReadWait.pending],
          fun _ => List.prefix_refl _⟩
      · split at hy <;> simp only [Option.some.injEq] at hy <;> subst hy
        · -- a new primary key: wait for a permit holding the key
          exact ⟨.pkScan ⟨s, kvs, env.firstItem k, lastKey, .permit k⟩, [], by simp [Exec.setActor, hops],
            by simpa using @PKScanRun.holding env s ks c kvs k lastKey hks ‹_›, by simp [Exec.setActor],
            by simp only [pkMoves, ReadWait.pending, List.length_cons, List.length_nil]; omega,
            fun _ => by rw [List.append_nil]; exact pkScan_isPrefix hks⟩
        · -- the same primary key: skip the key
          rename_i hsame
          have hk : env.firstItem k = lastPKAfter env.firstItem [] c := not_not.1 hsame
          have h := @PKScanRun.reading env s ks (c ++ [k]) kvs k (by simp [hks])
          rw [lastPKAfter_snoc, hk, newPKs_snoc, if_neg (not_not.2 hk), List.append_nil] at h
          exact ⟨.pkScan ⟨s, kvs, lastPKAfter env.firstItem [] c, k, .nextKey⟩, [],
            by simp [Exec.setActor, hops], by simpa using h, by simp [Exec.setActor],
            by simp only [pkMoves, ReadWait.pending, List.length_cons, List.length_nil]; omega,
            fun _ => by rw [List.append_nil]; exact pkScan_isPrefix hks⟩
    · -- the read fails
      simp only [Option.some.injEq] at hy
      subst hy
      exact ⟨.finished, [.error .retryable], by simp [Exec.setActor, Exec.send, hops, Stream.send],
        .failed hks, by simp [Exec.setActor, Exec.send], by simp [pkMoves], fun h => absurd rfl h⟩
  | holding hks hk =>
    rename_i c kvs k lastKey
    cases ha
    cases ev <;> simp only [doPKScan, reduceCtorEq] at hy
    -- the permit: the document of the held key is sent
    split at hy <;> simp only [Option.some.injEq, reduceCtorEq] at hy
    subst hy
    have hks' : ks = (c ++ [k]) ++ kvs := by simp [hks]
    refine ⟨.pkScan ⟨s, kvs, env.firstItem k, k, .nextKey⟩, [.doc (pkDoc env s k)], by
      simp [Exec.setActor, Exec.send, Exec.takePermit, hops, Stream.send, pkDoc], ?_,
      by simp [Exec.setActor, Exec.send, Exec.takePermit],
      by simp only [pkMoves, ReadWait.pending, List.length_cons, List.length_nil]; omega,
      fun _ => by simpa [newPKs_snoc, hk] using @pkScan_isPrefix env s ks _ _ hks'⟩
    simpa [newPKs_snoc, hk] using @PKScanRun.reading env s ks (c ++ [k]) kvs k hks'
  | ended => cases ha
  | failed => cases ha

/-- **`doPKScan` can always go on** while it reads: it reads the next key or ends, and it sends
the held one when a permit is free. -/
theorem doPKScan_live (env : Env) (st : PKScan) (hcan : st.wait = .nextKey ∨ x.canTake = true) :
    ∃ ev, ev ≠ .fail ∧ ∃ y, doPKScan env x 0 st ev = some y := by
  rcases st with ⟨sid, kvs, lastPK, lastKey, _ | k⟩
  · refine ⟨.input, by decide, Option.isSome_iff_exists.1 ?_⟩
    rcases kvs with _ | ⟨k, kvs⟩
    · rfl
    · simp only [doPKScan]
      split <;> rfl
  · refine ⟨.complete, by decide, Option.isSome_iff_exists.1 ?_⟩
    simp [doPKScan, hcan.resolve_left (by simp)]

/-- **`doPKScan` that has not failed has sent a prefix of what it owes.** -/
theorem PKScanRun.isPrefix_owed {a : Actor} (h : PKScanRun env s ks a l)
    (hf : l.any Msg.isFailure = false) : l <+: pkScanOwed env s ks := by
  cases h with
  | reading hks => exact pkScan_isPrefix hks
  | holding hks => exact pkScan_isPrefix hks
  | ended => exact List.prefix_refl _
  | failed => simp [Msg.isFailure] at hf

/-- **`doPKScan` alone produces all it owes.** -/
theorem pkScan_soleProducer : SoleProducer env (PKScanRun env s ks) (pkScanOwed env s ks) pkMoves where
  step hops h hy := by
    rcases h.actor with ⟨st, rfl⟩ | rfl
    · exact PKScanRun.step hops h (by simpa [Exec.step, Exec.op?, hops] using hy)
    · simp [Exec.step, Exec.op?, hops] at hy
  isPrefix h hf := h.isPrefix_owed hf
  live hops h hpre hcan := by
    cases h with
    | @reading c kvs lastKey _ =>
      obtain ⟨ev, hev, y, hy⟩ :=
        doPKScan_live env ⟨s, kvs, lastPKAfter env.firstItem [] c, lastKey, .nextKey⟩ (.inl rfl)
      exact .inr ⟨ev, hev, y, by simpa [Exec.step, Exec.op?, hops] using hy⟩
    | holding =>
      obtain ⟨ev, hev, y, hy⟩ := doPKScan_live env _ (.inr hcan)
      exact .inr ⟨ev, hev, y, by simpa [Exec.step, Exec.op?, hops] using hy⟩
    | ended => exact .inl rfl
    | failed => exact absurd (eq_of_docs_error_isPrefix hpre).2 (by decide)

/-- **Every reachable state of a plan that registers `doPKScan` alone**, over the keys `ks`, is
one of `PKScanRun`'s, its output being operation `0`, on the lock of the checkpoint it ran on. -/
theorem pkScanRun_of_reachable {plan : Plan} {cp : PlanCheckpoint} {x0 : Exec} {r0 : Nat}
    (hstart : Exec.start env plan cp = some (x0, r0))
    (hops : x0.cp.ops = [⟨.pkScan ⟨s, ks, [], [], .nextKey⟩, .empty⟩]) {root : Nat}
    (hx : Reachable env plan cp x root) :
    root = 0 ∧ SoleInv (PKScanRun env s ks) cp.flowControlLock.active x := by
  induction hx with
  | start h =>
    obtain ⟨r, hr, hx0⟩ := Option.map_eq_some'.1 hstart
    obtain ⟨rfl, rfl⟩ := Prod.mk.inj (Option.some.inj (h.symm.trans hstart))
    simp only [Prod.mk.injEq] at hx0
    obtain ⟨rfl, rfl⟩ := hx0
    obtain ⟨hext, hlen⟩ := Plan.execute_shape plan hr
    dsimp only at hops ⊢
    rw [hops] at hlen
    exact ⟨by simpa using hlen, _, _, 0, hops, Nat.zero_le _,
      by simpa using @PKScanRun.reading env s ks [] ks [] rfl, by simp [hext.lock]⟩
  | move c _ hm ih =>
    obtain ⟨rfl, hinv⟩ := ih
    exact ⟨rfl, hinv.move pkScan_soleProducer hm⟩

/-- **What `doPKScan` has sent**: the documents of a prefix of what it owes, in order, then
possibly the error that ended its output, `end_of_stream` only after all of them. -/
theorem PKScanRun.sent {a : Actor} (h : PKScanRun env s ks a l) (hne : ∀ k ∈ ks, env.firstItem k ≠ []) :
    ∃ n ending, l = ((pkScanDocs env s ks).take n).map .doc ++ (ending.map .error).toList ∧
      (ending = some .endOfStream → n = (pkScanDocs env s ks).length) := by
  have hpre : ∀ c kvs, ks = c ++ kvs → ((pkScanDocs env s ks).take (newPKs env.firstItem [] c).length) =
      (newPKs env.firstItem [] c).map (pkDoc env s) := fun c kvs hks => by
    rw [pkScanDocs_eq_newPKs s hne, hks, newPKs_append, List.map_append, List.take_left']
    simp
  cases h with
  | @reading c kvs _ hks => exact ⟨_, none, by rw [hpre c kvs hks]; simp, by simp⟩
  | @holding c kvs _ _ hks _ => exact ⟨_, none, by rw [hpre c _ hks]; simp, by simp⟩
  | ended => exact ⟨(pkScanDocs env s ks).length, some .endOfStream, by
      simp [pkScanDocs_eq_newPKs s hne], fun _ => rfl⟩
  | @failed c kvs hks => exact ⟨_, some .retryable, by rw [hpre c kvs hks]; simp, by simp⟩

end Step

/-! ## The encoding: each document once -/

/-- **The collection's keys begin with their document's encoded primary key**:
`DataKey::decode_item(key, 0)` is a non-empty prefix of the key, and no encoded primary key is a
proper prefix of another. -/
structure PKEncoded (env : Env) : Prop where
  ne_nil : ∀ k ∈ env.table, env.firstItem k ≠ []
  begins : ∀ k ∈ env.table, env.firstItem k <+: k
  prefixFree : PrefixFree (env.table.map env.firstItem)

section Encoded

variable {f : Key → Key}

/-- **Primary keys rise along the keys**: a smaller key has a primary key at most as large. -/
theorem PKEncoded.firstItem_le (henc : PKEncoded env) {k k' : Key} (hk : k ∈ env.table)
    (hk' : k' ∈ env.table) (h : k < k') : env.firstItem k ≤ env.firstItem k' := by
  by_contra hgt
  have hlt : env.firstItem k' < env.firstItem k := lt_of_not_le hgt
  have hnp : ¬env.firstItem k' <+: env.firstItem k := fun hp =>
    ne_of_lt hlt (henc.prefixFree _ (List.mem_map_of_mem _ hk') _ (List.mem_map_of_mem _ hk) hp)
  obtain ⟨a, ha⟩ := henc.begins k' hk'
  obtain ⟨b, hb⟩ := henc.begins k hk
  have := append_lt_append_of_lt a b hlt hnp
  rw [ha, hb] at this
  exact absurd h (not_lt.2 this.le)

/-- **The new primary keys rise strictly** along keys whose primary keys rise, all above the
one before them. -/
theorem newPKs_sorted : ∀ {p : Key} {ks : List Key}, ks.Pairwise (fun a b => f a ≤ f b) →
    (∀ k ∈ ks, p ≤ f k) → ((newPKs f p ks).map f).Pairwise (· < ·) ∧ ∀ k ∈ newPKs f p ks, p < f k
  | _, [], _, _ => by simp [newPKs]
  | p, k :: ks, hpw, hp => by
    rw [List.pairwise_cons] at hpw
    by_cases hk : f k = p
    · simp only [newPKs, hk, ne_eq, not_true_eq_false, if_false]
      exact newPKs_sorted hpw.2 fun k' hk' => hk ▸ hpw.1 k' hk'
    · have hlt : p < f k := lt_of_le_of_ne (hp k (List.mem_cons_self k ks)) (Ne.symm hk)
      obtain ⟨ih1, ih2⟩ := newPKs_sorted (p := f k) hpw.2 hpw.1
      simp only [newPKs, hk, ne_eq, not_false_eq_true, if_true, List.map_cons, List.pairwise_cons,
        List.mem_map, List.mem_cons, forall_eq_or_imp]
      exact ⟨⟨fun _ ⟨k', hk', he⟩ => he ▸ ih2 k' hk', ih1⟩, hlt, fun k' hk' => hlt.trans (ih2 k' hk')⟩

/-- **Every key's primary key is a new one's**, or the one before. -/
theorem firstItem_mem_newPKs : ∀ {p : Key} {ks : List Key} {k : Key}, k ∈ ks →
    f k = p ∨ ∃ k' ∈ newPKs f p ks, f k' = f k
  | _, [], _, hk => absurd hk (List.not_mem_nil _)
  | p, a :: ks, k, hk => by
    by_cases ha : f a = p
    · simp only [newPKs, ha, ne_eq, not_true_eq_false, if_false]
      rcases List.mem_cons.1 hk with rfl | hk
      · exact .inl ha
      · exact firstItem_mem_newPKs hk
    · simp only [newPKs, ha, ne_eq, not_false_eq_true, if_true, List.mem_cons, exists_eq_or_imp]
      rcases List.mem_cons.1 hk with rfl | hk
      · exact .inr (.inl rfl)
      · rcases firstItem_mem_newPKs (p := f a) hk with h | h
        · exact .inr (.inl h.symm)
        · exact .inr (.inr h)

end Encoded

section Owed

variable {s : Nat} {lo hi : Key}

theorem mem_table_of_mem_getDescendants {k : Key} (h : k ∈ getDescendants env.table lo hi) :
    k ∈ env.table :=
  (List.mem_filter.1 h).1

/-- **No document is owed twice**: over a range of an encoded collection the owed documents'
primary keys rise strictly. -/
theorem pkScanDocs_nodup (henc : PKEncoded env) :
    ((pkScanDocs env s (getDescendants env.table lo hi)).map ScanReturned.doc).Nodup := by
  have hsorted : (getDescendants env.table lo hi).Sorted (· < ·) := env.table_sorted.filter _
  have hmono : (getDescendants env.table lo hi).Pairwise fun a b => env.firstItem a ≤ env.firstItem b :=
    List.Pairwise.imp_of_mem (fun ha hb h => henc.firstItem_le (mem_table_of_mem_getDescendants ha)
      (mem_table_of_mem_getDescendants hb) h) hsorted
  rw [pkScanDocs_eq_newPKs s fun k hk => henc.ne_nil k (mem_table_of_mem_getDescendants hk), List.map_map]
  have := (newPKs_sorted hmono fun k _ => le_append [] (env.firstItem k)).1
  have hmap : ScanReturned.doc ∘ pkDoc env s = DocRef.stored ∘ env.firstItem := rfl
  rw [hmap, ← List.map_map]
  exact List.Nodup.map (fun _ _ h => DocRef.stored.inj h) (this.imp ne_of_lt)

/-- **Every document with a key in the range is owed.** -/
theorem pkScanDocs_covers (henc : PKEncoded env) {k : Key} (hk : k ∈ getDescendants env.table lo hi) :
    ∃ d ∈ pkScanDocs env s (getDescendants env.table lo hi), d.doc = .stored (env.firstItem k) := by
  have hne : ∀ k ∈ getDescendants env.table lo hi, env.firstItem k ≠ [] :=
    fun k hk => henc.ne_nil k (mem_table_of_mem_getDescendants hk)
  rw [pkScanDocs_eq_newPKs s hne]
  rcases firstItem_mem_newPKs (f := env.firstItem) (p := []) hk with h | ⟨k', hk', he⟩
  · exact absurd h (hne k hk)
  · exact ⟨pkDoc env s k', List.mem_map_of_mem _ hk', by simp [pkDoc, he]⟩

end Owed

/-! ## Every run of a primary-key scan -/

/-- **Primary-key scans emit each document once.** Take any plan that registers `doPKScan`
alone, scan `s` over the keys `getDescendants` returns for `[lo, hi)` — `TableScanPlan`
(`tableScan_start`) and the range `PrimaryKeyLookupPlan` on a checkpoint with no operations. On
a collection whose keys begin with their encoded primary key, every run of it has sent, on its
output, the documents of a prefix of what it owes — one per maximal run of keys sharing a
primary key, the sub-context of that key at the run's first key — then possibly the error that
ended it, `end_of_stream` only after all of them. No primary key is owed twice, and every
primary key with a key in the range is owed. From every state in which the read has not failed,
on a lock that had no permit taken, a run sends all of them then `end_of_stream`. -/
theorem pkScan_emits_each_document_once (env : Env) (henc : PKEncoded env) {plan : Plan}
    {cp : PlanCheckpoint} {x0 : Exec} {r0 s : Nat} {lo hi : Key}
    (hstart : Exec.start env plan cp = some (x0, r0))
    (hops : x0.cp.ops = [⟨.pkScan ⟨s, getDescendants env.table lo hi, [], [], .nextKey⟩, .empty⟩])
    {x : Exec} {root : Nat} (hx : Reachable env plan cp x root) :
    root = 0 ∧
    (∃ n ending, x.sentAt 0 = some (((pkScanDocs env s (getDescendants env.table lo hi)).take n).map .doc ++
        (ending.map .error).toList) ∧
      (ending = some .endOfStream → n = (pkScanDocs env s (getDescendants env.table lo hi)).length)) ∧
    ((pkScanDocs env s (getDescendants env.table lo hi)).map ScanReturned.doc).Nodup ∧
    (∀ k ∈ getDescendants env.table lo hi,
      ∃ d ∈ pkScanDocs env s (getDescendants env.table lo hi), d.doc = .stored (env.firstItem k)) ∧
    (cp.flowControlLock.active = 0 → x.failed = false →
      ∃ y, Exec.Reaches env 0 x y ∧ y.sentAt 0 =
        some ((pkScanDocs env s (getDescendants env.table lo hi)).map .doc ++ [.error .endOfStream])) := by
  have hne : ∀ k ∈ getDescendants env.table lo hi, env.firstItem k ≠ [] :=
    fun k hk => henc.ne_nil k (mem_table_of_mem_getDescendants hk)
  obtain ⟨rfl, hinv⟩ := pkScanRun_of_reachable hstart hops hx
  obtain ⟨a, l, t, hxops, -, hrun, -⟩ := hinv
  obtain ⟨n, ending, rfl, hend⟩ := hrun.sent hne
  refine ⟨rfl, ⟨n, ending, by simp [Exec.sentAt, Exec.op?, hxops], hend⟩, pkScanDocs_nodup henc,
    fun k hk => pkScanDocs_covers henc hk, fun h0 hf => ?_⟩
  obtain ⟨y, hxy, hy⟩ := (h0 ▸ (pkScanRun_of_reachable hstart hops hx).2).produces pkScan_soleProducer hf
  exact ⟨y, hxy, by rw [hy, pkScanOwed, pkScanDocs_eq_newPKs s hne, List.map_map]⟩

/-- **`TableScanPlan` registers `doPKScan` alone**, over the keys of its range: from `"\x00"`,
or the scan's lower bound above it, to `"\xff"`, or the scan's upper bound below it. -/
theorem tableScan_start {cp : PlanCheckpoint} (hcp : cp.ops = []) :
    ∃ x0, Exec.start env .tableScan cp = some (x0, 0) ∧
      x0.cp.ops = [⟨.pkScan ⟨cp.scansAdded, getDescendants env.table
        (max allKeysBegin (cp.getBounds cp.scansAdded).1)
        (max (max allKeysBegin (cp.getBounds cp.scansAdded).1) (min allKeysEnd (cp.getBounds cp.scansAdded).2)),
        [], [], .nextKey⟩, .empty⟩] := by
  have hexec : Plan.execute env .tableScan cp = some (cp.addScan.1.register (.pkScan ⟨cp.scansAdded,
      getDescendants env.table (max allKeysBegin (cp.getBounds cp.scansAdded).1)
        (max (max allKeysBegin (cp.getBounds cp.scansAdded).1) (min allKeysEnd (cp.getBounds cp.scansAdded).2)),
      [], [], .nextKey⟩)) := by
    rw [← PlanCheckpoint.getBounds_addScan]
    rfl
  exact ⟨_, by rw [Exec.start, hexec, Option.map_some']; exact congrArg some (Prod.ext rfl (by simp [hcp])),
    by simp [hcp]⟩

/-- A collection of two documents, `[1]` with the keys `[1, 1]` and `[1, 2]`, and `[2]` with the
key `[2, 5]`; the primary key is the first byte. -/
def twoKeyDocEnv : Env :=
  ⟨[[1, 1], [1, 2], [2, 5]], fun _ => [], fun k => k.take 1, id, fun _ _ => true, fun _ _ => [], [],
    by decide, fun _ => List.sorted_nil⟩

theorem twoKeyDocEnv_pkEncoded : PKEncoded twoKeyDocEnv :=
  ⟨by decide, fun k _ => List.take_prefix 1 k, by decide⟩

/-- **A table scan of two documents**, one of them with two keys, has from its start a run
that sends each document once, at its first key, then `end_of_stream`. -/
theorem pkScan_twoDocs_each_once :
    ∃ x0 y, Exec.start twoKeyDocEnv .tableScan (PlanCheckpoint.new 10) = some (x0, 0) ∧
      Exec.Reaches twoKeyDocEnv 0 x0 y ∧
      y.sentAt 0 = some [.doc ⟨.stored [1], 0, [1, 1]⟩, .doc ⟨.stored [2], 0, [2, 5]⟩, .error .endOfStream] := by
  obtain ⟨x0, hs, hops⟩ := @tableScan_start twoKeyDocEnv (PlanCheckpoint.new 10) rfl
  obtain ⟨y, hxy, hy⟩ := (pkScan_emits_each_document_once twoKeyDocEnv twoKeyDocEnv_pkEncoded hs hops
    (.start hs)).2.2.2.2 rfl (by simp [Exec.failed, hops, Stream.empty])
  exact ⟨x0, y, hs, hxy, hy.trans rfl⟩

end DocLayer
