import DocLayer.Frame
import DocLayer.Execute
import DocLayer.SplitBound

/-! # Per-scan scan keys are increasing and in bounds on every stream

Every document that reaches an operator's output was produced by one scan at one key of its
range, and every operator passes documents on in the order it took them, possibly dropping
some. So, scan by scan, the keys on any stream are a subsequence of one range read: strictly
increasing, and inside the scan's bounds.

### The invariant

For each operation `k` its *history* is what it has sent followed by what it holds
(`Actor.queued`). The invariant (`OpInv`) says, for a ghost assignment `scope` of an interval
of scan ids to each operation:

* **`Sound`** — scan by scan, the history's keys are ordered in the scan's bounds, and only
  scans of the operation's scope occur in it;
* **`ActorLink`** — a range reader's history, its pending key and its unread keys are one
  ordered list; an actor that reads an input holds, scan by scan, a subsequence of what it has
  taken from that input; `doUnion` does so for each input on the scans of that input's
  scope, and the two scopes are disjoint.

Every step keeps it (`OpInv.step`, from one lemma per actor), `execute` establishes it
(`execute_startInv`), so every reachable state has it (`Reachable.exists_opInv`), which gives
`scanKeys_sent_ordered`. -/

namespace DocLayer

/-! ## (1) Scan keys of a list of documents -/

/-- **The scan keys of scan `s`'s documents in `ds`**, in order. -/
def scanKeys (s : Nat) (ds : List ScanReturned) : List Key :=
  (ds.filter fun d => d.scanId = (s : Int)).map ScanReturned.scanKey

@[simp] theorem scanKeys_nil (s : Nat) : scanKeys s [] = [] := rfl

@[simp] theorem scanKeys_append (s : Nat) (ds ds' : List ScanReturned) :
    scanKeys s (ds ++ ds') = scanKeys s ds ++ scanKeys s ds' := by
  simp [scanKeys]

@[simp] theorem scanKeys_cons (s : Nat) (d : ScanReturned) (ds : List ScanReturned) :
    scanKeys s (d :: ds) = (if d.scanId = s then [d.scanKey] else []) ++ scanKeys s ds := by
  by_cases h : d.scanId = s <;> simp [scanKeys, List.filter_cons, h]

/-- **`ds'` keeps, scan by scan, a subsequence of the keys of `ds`.** -/
def ScanSub (ds' ds : List ScanReturned) : Prop := ∀ s : Nat, (scanKeys s ds').Sublist (scanKeys s ds)

namespace ScanSub

theorem refl (ds : List ScanReturned) : ScanSub ds ds := fun _ => List.Sublist.refl _

theorem trans {a b c : List ScanReturned} (h : ScanSub a b) (h' : ScanSub b c) : ScanSub a c :=
  fun s => (h s).trans (h' s)

theorem of_sublist {a b : List ScanReturned} (h : a.Sublist b) : ScanSub a b :=
  fun _ => (h.filter _).map _

theorem append {a b : List ScanReturned} (h : ScanSub a b) (c : List ScanReturned) :
    ScanSub (a ++ c) (b ++ c) := fun s => by
  simpa only [scanKeys_append] using (h s).append (List.Sublist.refl _)

/-- A document of no scan (scan id `-1`) changes no scan's keys. -/
theorem append_unscanned {a b : List ScanReturned} (h : ScanSub a b) {u : ScanReturned}
    (hu : u.scanId < 0) : ScanSub (a ++ [u]) b := fun s => by
  have : u.scanId ≠ s := by omega
  simpa [this] using h s

end ScanSub

/-- **Keys of one scan in order**: strictly increasing, and each in `[B.begin, B.end)` and
below `"\xff"`. -/
def OrderedIn (B : Key × Key) (ks : List Key) : Prop :=
  ks.Sorted (· < ·) ∧ ∀ k ∈ ks, B.1 ≤ k ∧ k < B.2 ∧ k < allKeysEnd

theorem OrderedIn.sublist {B : Key × Key} {ks ks' : List Key} (h : OrderedIn B ks)
    (hs : ks'.Sublist ks) : OrderedIn B ks' :=
  ⟨h.1.sublist hs, fun k hk => h.2 k (hs.subset hk)⟩

theorem OrderedIn.nil (B : Key × Key) : OrderedIn B [] := ⟨List.sorted_nil, by simp⟩

/-- A scope of scan ids `[lo, hi)` contains scan `s`. -/
def InScope (sc : Nat × Nat) (s : Nat) : Prop := sc.1 ≤ s ∧ s < sc.2

/-- Scope `sc` lies inside scope `sc'`. -/
def Within (sc sc' : Nat × Nat) : Prop := sc'.1 ≤ sc.1 ∧ sc.2 ≤ sc'.2

theorem Within.inScope {sc sc' : Nat × Nat} (h : Within sc sc') {s : Nat} (hs : InScope sc s) :
    InScope sc' s := ⟨h.1.trans hs.1, lt_of_lt_of_le hs.2 h.2⟩

theorem Within.trans {a b c : Nat × Nat} (h : Within a b) (h' : Within b c) : Within a c :=
  ⟨h'.1.trans h.1, h.2.trans h'.2⟩

theorem Within.refl (a : Nat × Nat) : Within a a := ⟨le_rfl, le_rfl⟩

variable (B : Nat → Key × Key)

/-- **A sound history**: scan by scan its keys are ordered in the scan's bounds, and only
scans of scope `sc` occur in it. -/
structure Sound (sc : Nat × Nat) (ds : List ScanReturned) : Prop where
  ordered : ∀ s, OrderedIn (B s) (scanKeys s ds)
  inScope : ∀ s, scanKeys s ds ≠ [] → InScope sc s

variable {B}

theorem Sound.mono {sc sc' : Nat × Nat} {ds ds' : List ScanReturned} (h : Sound B sc ds)
    (hsub : ScanSub ds' ds) (hw : Within sc sc') : Sound B sc' ds' :=
  ⟨fun s => (h.ordered s).sublist (hsub s),
    fun s hs => hw.inScope (h.inScope s fun h0 => hs (List.eq_nil_of_sublist_nil (h0 ▸ hsub s)))⟩

theorem Sound.nil (sc : Nat × Nat) : Sound B sc [] := ⟨fun _ => OrderedIn.nil _, by simp⟩

/-- **The history of a range reader is sound**: all its documents are of scan `s` in its
scope, and their keys are a prefix of an ordered list. -/
theorem Sound.of_scan {sc : Nat × Nat} {s : Nat} {ds : List ScanReturned} {rest : List Key}
    (hs : InScope sc s) (hid : ∀ d ∈ ds, d.scanId = s)
    (hord : OrderedIn (B s) (ds.map ScanReturned.scanKey ++ rest)) : Sound B sc ds := by
  have hk : ∀ s', scanKeys s' ds = if s' = s then ds.map ScanReturned.scanKey else [] := by
    intro s'
    split
    · subst s'
      rw [scanKeys, List.filter_eq_self.2]
      intro d hd; simpa using hid d hd
    · rename_i hne
      simp only [scanKeys, List.map_eq_nil_iff, List.filter_eq_nil_iff, decide_eq_true_eq]
      intro d hd h; exact hne (by have := hid d hd; omega)
  refine ⟨fun s' => ?_, fun s' hne => ?_⟩
  · rw [hk]; split
    · subst s'; exact hord.sublist (List.sublist_append_left _ _)
    · exact OrderedIn.nil _
  · rw [hk] at hne; split at hne
    · subst s'; exact hs
    · exact absurd rfl hne

/-! ## (2) Histories and what a consumer has taken -/

/-- **The documents an actor holds**: received (or inserted) and not yet output. -/
def Actor.queued : Actor → List ScanReturned
  | .headQueue _ st => st.futures
  | .buildIndex st => st.futures
  | .update st => st.futures
  | .projectAndUpdate st => st.firstDoc.toList
  | _ => []

@[simp] theorem Actor.queued_finished : Actor.finished.queued = [] := rfl

/-- **The one input an actor reads**, for the actors that read a single stream. -/
def Actor.input? : Actor → Option Nat
  | .headQueue _ st => some st.input
  | .buildIndex st => some st.input
  | .update st => some st.input
  | .skip st => some st.input
  | .projectAndUpdate st => some st.input
  | _ => none

@[simp] theorem Actor.input?_finished : Actor.finished.input? = none := rfl

/-- **The documents operation `j` has sent**, in order. -/
def Exec.sentDocs (x : Exec) (j : Nat) : List ScanReturned :=
  ((x.op? j).map fun o => docsOf o.output.sent).getD []

/-- **The documents the consumer of operation `j` has taken**, in order. -/
def Exec.takenDocs (x : Exec) (j : Nat) : List ScanReturned :=
  ((x.op? j).map fun o => docsOf (o.output.sent.take o.output.taken)).getD []

theorem docsOf_take_mono {l l' : List Msg} {t t' : Nat} (hl : l <+: l') (ht : t ≤ t') :
    docsOf (l.take t) <+: docsOf (l'.take t') := by
  obtain ⟨r, rfl⟩ := hl
  have : (l ++ r).take t' = l.take t' ++ r.take (t' - l.length) := List.take_append_eq_append_take
  rw [this, docsOf_append]
  refine List.IsPrefix.trans ?_ (List.prefix_append _ _)
  obtain ⟨u, hu⟩ := List.take_prefix_take_left l ht
  exact ⟨docsOf u, by rw [← docsOf_append, hu]⟩

/-- **What a consumer has taken only grows.** -/
theorem Exec.Frame.takenDocs_grows {i : Nat} {x y : Exec} (h : Exec.Frame i x y) (j : Nat) :
    x.takenDocs j <+: y.takenDocs j := by
  unfold Exec.takenDocs
  cases hx : x.op? j with
  | none => exact List.nil_prefix
  | some o =>
    obtain ⟨l', hl', hp⟩ := h.sent_grows j o.output.sent (by simp [Exec.sentAt, hx])
    obtain ⟨t', ht', hle⟩ := h.taken_le j o.output.taken (by simp [Exec.takenAt, hx])
    cases hy : y.op? j with
    | none => simp [Exec.sentAt, hy] at hl'
    | some o' =>
      simp only [Exec.sentAt, Exec.takenAt, hy, Option.map_some', Option.some.injEq] at hl' ht'
      simpa [hl', ht'] using docsOf_take_mono hp hle

/-- **Taking a document off stream `j`**: it is the next one after what was taken, among what
was sent. -/
theorem Exec.peek_doc {x : Exec} {j : Nat} {d : ScanReturned} (h : x.peek j = some (.doc d)) :
    (x.popInput j).takenDocs j = x.takenDocs j ++ [d] ∧ x.takenDocs j ++ [d] <+: x.sentDocs j := by
  unfold Exec.peek at h
  cases hx : x.op? j with
  | none => simp [hx] at h
  | some o =>
    simp only [hx, Option.some_bind, Stream.peek] at h
    have htake : o.output.sent.take (o.output.taken + 1) = o.output.sent.take o.output.taken ++ [.doc d] := by
      rw [List.take_succ, ← List.get?_eq_getElem?, h]; rfl
    have hpop : (x.popInput j).op? j = some { o with output := o.output.pop } := by
      simp only [Exec.op?] at hx
      simp [Exec.popInput, Exec.op?, List.getElem?_modify, hx]
    refine ⟨?_, ?_⟩
    · simp [Exec.takenDocs, hpop, hx, htake]
    · simp only [Exec.takenDocs, Exec.sentDocs, hx, Option.map_some', Option.getD_some]
      rw [show [d] = docsOf [.doc d] from rfl, ← docsOf_append, ← htake]
      obtain ⟨u, hu⟩ := List.take_prefix (o.output.taken + 1) o.output.sent
      exact ⟨docsOf u, by rw [← docsOf_append, hu]⟩

/-- **Forwarding the document taken off stream `j`** leaves it among what was taken. -/
theorem Exec.peek_doc_forward {x : Exec} {i j : Nat} {d : ScanReturned} (h : x.peek j = some (.doc d)) :
    x.takenDocs j ++ [d] <+: ((x.popInput j).send i (.doc d)).takenDocs j :=
  (Exec.peek_doc h).1 ▸ ((Exec.Frame.refl i _).send _).takenDocs_grows _

theorem ScanSub.of_isPrefix {a b : List ScanReturned} (h : a <+: b) : ScanSub a b :=
  ScanSub.of_sublist h.sublist

/-- A stream with a next message belongs to a registered operation. -/
theorem Exec.peek_some {x : Exec} {j : Nat} {m : Msg} (h : x.peek j = some m) :
    ∃ a l, x.actorAt j = some a ∧ x.sentAt j = some l ∧ x.sentDocs j = docsOf l := by
  unfold Exec.peek at h
  cases hx : x.op? j with
  | none => simp [hx] at h
  | some o => exact ⟨o.actor, o.output.sent, by simp [Exec.actorAt, hx], by simp [Exec.sentAt, hx],
      by simp [Exec.sentDocs, hx]⟩

/-! ## (3) The invariant -/

section Invariant

variable (B : Nat → Key × Key) (scope : Nat → Nat × Nat)

/-- **A range reader's link**: its documents are all of scan `s`, a scan of its scope, and
their keys followed by the keys it has still to deliver form one ordered list. -/
def ScanLink (sc : Nat × Nat) (s : Nat) (H : List ScanReturned) (rest : List Key) : Prop :=
  InScope sc s ∧ (∀ d ∈ H, d.scanId = s) ∧ OrderedIn (B s) (H.map ScanReturned.scanKey ++ rest)

/-- **What ties operation `k`'s history `H` to the rest of execution `x`**, by its actor `a`. -/
def ActorLink (x : Exec) (k : Nat) : Actor → List ScanReturned → Prop
  | .pkScan st, H => ScanLink B (scope k) st.scanId H (st.wait.pending ++ st.kvs)
  | .docInfo st, H => ScanLink B (scope k) st.scanId H (st.wait.pending ++ st.kvs)
  | .singlePKLookup st, H => ScanLink B (scope k) st.scanId H [st.key] ∧ H = []
  | .union st, H => Within (scope st.a) (scope k) ∧ Within (scope st.b) (scope k) ∧
      (scope st.a).2 ≤ (scope st.b).1 ∧
      ∀ s, (scanKeys s H).Sublist
        (scanKeys s (if s < (scope st.a).2 then x.takenDocs st.a else x.takenDocs st.b))
  | a, H => ∀ j, a.input? = some j → Within (scope j) (scope k) ∧ ScanSub H (x.takenDocs j)

/-- **The invariant at operation `k`**: its history is sound and linked. -/
def OpInv (x : Exec) (k : Nat) : Prop :=
  ∀ a l, x.actorAt k = some a → x.sentAt k = some l →
    Sound B (scope k) (docsOf l ++ a.queued) ∧ ActorLink B scope x k a (docsOf l ++ a.queued)

variable {B scope}

theorem ActorLink.finished {x : Exec} {k : Nat} {H : List ScanReturned} :
    ActorLink B scope x k .finished H := fun _ h => by cases h

theorem actorLink_of_input {x : Exec} {k j : Nat} {a : Actor} {H : List ScanReturned}
    (hj : a.input? = some j) :
    ActorLink B scope x k a H ↔ Within (scope j) (scope k) ∧ ScanSub H (x.takenDocs j) := by
  cases a <;> simp_all [ActorLink, Actor.input?]

/-- **The link survives what others take**: it only speaks of what was taken, which grows. -/
theorem ActorLink.mono {x y : Exec} (hxy : ∀ j, x.takenDocs j <+: y.takenDocs j) {k : Nat}
    {a : Actor} {H : List ScanReturned} (h : ActorLink B scope x k a H) :
    ActorLink B scope y k a H := by
  cases a with
  | union st =>
    refine ⟨h.1, h.2.1, h.2.2.1, fun s => (h.2.2.2 s).trans ?_⟩
    split <;> exact ScanSub.of_isPrefix (hxy _) s
  | pkScan | docInfo | singlePKLookup => exact h
  | _ => exact fun j hj => ⟨(h j hj).1, (h j hj).2.trans (ScanSub.of_isPrefix (hxy j))⟩

/-- **Operations other than the mover keep their invariant.** -/
theorem OpInv.frame_ne {x y : Exec} {i k : Nat} (hf : Exec.Frame i x y) (hk : k ≠ i)
    (h : OpInv B scope x k) : OpInv B scope y k := by
  intro a l ha hl
  rw [hf.actorAt k hk] at ha
  rw [hf.sentAt k hk] at hl
  exact (h a l ha hl).imp id (ActorLink.mono hf.takenDocs_grows)

/-! ### Actors that read one input -/

/-- **One step of an actor reading input `j`, seen from its history**: it took nothing and
its history shrank, scan by scan; or it took the next document `d` of `j`, and its history is
within the old one followed by `d`. -/
def LinkStep (x y : Exec) (j : Nat) (H H' : List ScanReturned) : Prop :=
  ScanSub H' H ∨
    ∃ d, x.peek j = some (.doc d) ∧ x.takenDocs j ++ [d] <+: y.takenDocs j ∧ ScanSub H' (H ++ [d])

/-- **The next document of stream `j` lies in `j`'s sound history**, after what was taken. -/
theorem OpInv.taken_snoc {x : Exec} {j : Nat} {d : ScanReturned} (hinv : ∀ k, OpInv B scope x k)
    (hpeek : x.peek j = some (.doc d)) :
    ∃ H, Sound B (scope j) H ∧ ScanSub (x.takenDocs j ++ [d]) H := by
  obtain ⟨aj, lj, haj, hlj, hsent⟩ := Exec.peek_some hpeek
  exact ⟨_, (hinv j aj lj haj hlj).1, ScanSub.of_isPrefix <| (Exec.peek_doc hpeek).2.trans <|
    hsent ▸ List.prefix_append _ _⟩

/-- **A link step keeps the mover's invariant.** A document taken from `j` lies in `j`'s sound
history, so adding it keeps the mover's history sound. -/
theorem OpInv.of_linkStep {x y : Exec} {i j : Nat} {a : Actor} {l : List Msg}
    (hinv : ∀ k, OpInv B scope x k) (hf : Exec.Frame i x y) (ha : x.actorAt i = some a)
    (hl : x.sentAt i = some l) (hj : a.input? = some j)
    (hstep : ∀ a' l', y.actorAt i = some a' → y.sentAt i = some l' →
      (a' = .finished ∨ a'.input? = some j) ∧
      LinkStep x y j (docsOf l ++ a.queued) (docsOf l' ++ a'.queued)) :
    OpInv B scope y i := by
  intro a' l' ha' hl'
  obtain ⟨hin, hstep⟩ := hstep a' l' ha' hl'
  obtain ⟨hsound, hlink⟩ := hinv i a l ha hl
  obtain ⟨hw, hsub⟩ := (actorLink_of_input hj).1 hlink
  have hlink' : ∀ H', ScanSub H' (y.takenDocs j) → ActorLink B scope y i a' H' := fun H' hH' => by
    rcases hin with rfl | hin
    · exact ActorLink.finished
    · exact (actorLink_of_input hin).2 ⟨hw, hH'⟩
  rcases hstep with hs | ⟨d, hpeek, htaken, hs⟩
  · exact ⟨hsound.mono hs (Within.refl _), hlink' _ <| hs.trans <| hsub.trans <|
      ScanSub.of_isPrefix (hf.takenDocs_grows j)⟩
  · obtain ⟨Hj, hSj, hTj⟩ := OpInv.taken_snoc hinv hpeek
    exact ⟨hSj.mono ((hs.trans (hsub.append [d])).trans hTj) hw,
      hlink' _ <| (hs.trans (hsub.append [d])).trans (ScanSub.of_isPrefix htaken)⟩

variable {env : Env}

theorem LinkStep.take {x y : Exec} {i j : Nat} {d : ScanReturned} {H H' : List ScanReturned}
    (hpeek : x.peek j = some (.doc d)) (hf : Exec.Frame i (x.popInput j) y)
    (hs : ScanSub H' (H ++ [d])) : LinkStep x y j H H' :=
  Or.inr ⟨d, hpeek, (Exec.peek_doc hpeek).1 ▸ hf.takenDocs_grows j, hs⟩

theorem headQueueStep_linkStep {kind : QueueKind} {st : HeadQueue} {ev : Event} {x y : Exec} {i : Nat}
    {l : List Msg} (h : headQueueStep env kind x i st ev = some y)
    (ha : x.actorAt i = some (.headQueue kind st)) (hl : x.sentAt i = some l) :
    ∀ a' l', y.actorAt i = some a' → y.sentAt i = some l' →
      (a' = .finished ∨ a'.input? = some st.input) ∧
      LinkStep x y st.input (docsOf l ++ st.futures) (docsOf l' ++ a'.queued) := by
  intro a' l' ha' hl'
  unfold headQueueStep at h
  repeat' split at h
  all_goals cases h
  all_goals simp [ha, hl] at ha' hl'
  all_goals subst ha' hl'
  all_goals simp only [Actor.input?, true_or, or_true, true_and]
  all_goals first
    | (apply Or.inl; apply ScanSub.of_sublist; simp [Actor.queued, *]; done)
    | (apply LinkStep.take ‹_›
       · apply_rules [Exec.Frame.refl, Exec.Frame.setActor, Exec.Frame.onReceive]
       · apply ScanSub.of_sublist; simp [Actor.queued])

theorem scanAndBuildIndex_linkStep {st : BuildIndex} {ev : Event} {x y : Exec} {i : Nat}
    {l : List Msg} (h : scanAndBuildIndex x i st ev = some y)
    (ha : x.actorAt i = some (.buildIndex st)) (hl : x.sentAt i = some l) :
    ∀ a' l', y.actorAt i = some a' → y.sentAt i = some l' →
      (a' = .finished ∨ a'.input? = some st.input) ∧
      LinkStep x y st.input (docsOf l ++ st.futures) (docsOf l' ++ a'.queued) := by
  intro a' l' ha' hl'
  unfold scanAndBuildIndex at h
  repeat' split at h
  all_goals cases h
  all_goals simp [ha, hl] at ha' hl'
  all_goals subst ha' hl'
  all_goals simp only [Actor.input?, true_or, or_true, true_and]
  all_goals first
    | (apply Or.inl; apply ScanSub.of_sublist; simp [Actor.queued, *]; done)
    | (apply LinkStep.take ‹_›
       · apply_rules [Exec.Frame.refl, Exec.Frame.setActor, Exec.Frame.write]
       · apply ScanSub.of_sublist; simp [Actor.queued])

theorem doSkip_linkStep {st : Skip} {ev : Event} {x y : Exec} {i : Nat}
    {l : List Msg} (h : doSkip x i st ev = some y)
    (ha : x.actorAt i = some (.skip st)) (hl : x.sentAt i = some l) :
    ∀ a' l', y.actorAt i = some a' → y.sentAt i = some l' →
      (a' = .finished ∨ a'.input? = some st.input) ∧
      LinkStep x y st.input (docsOf l ++ (Actor.skip st).queued) (docsOf l' ++ a'.queued) := by
  intro a' l' ha' hl'
  unfold doSkip at h
  repeat' split at h
  all_goals cases h
  all_goals simp [ha, hl] at ha' hl'
  all_goals subst ha' hl'
  all_goals simp only [Actor.input?, true_or, or_true, true_and]
  all_goals first
    | (apply Or.inl; apply ScanSub.of_sublist; simp [Actor.queued, *]; done)
    | (apply LinkStep.take ‹_›
       · apply_rules [Exec.Frame.refl, Exec.Frame.send]
       · apply ScanSub.of_sublist; simp [Actor.queued])

theorem doUpdate_linkStep {st : Update} {ev : Event} {x y : Exec} {i : Nat}
    {l : List Msg} (h : doUpdate x i st ev = some y)
    (ha : x.actorAt i = some (.update st)) (hl : x.sentAt i = some l) :
    ∀ a' l', y.actorAt i = some a' → y.sentAt i = some l' →
      (a' = .finished ∨ a'.input? = some st.input) ∧
      LinkStep x y st.input (docsOf l ++ st.futures) (docsOf l' ++ a'.queued) := by
  intro a' l' ha' hl'
  unfold doUpdate updateAfterDrain at h
  repeat' split at h
  all_goals cases h
  all_goals simp [ha, hl] at ha' hl'
  all_goals subst ha' hl'
  all_goals simp only [Actor.input?, true_or, or_true, true_and]
  all_goals first
    | (apply Or.inl; apply ScanSub.of_sublist; simp [Actor.queued, *]; done)
    | (apply LinkStep.take ‹_›
       · apply_rules [Exec.Frame.refl, Exec.Frame.setActor, Exec.Frame.write, Exec.Frame.setCounter]
       · apply ScanSub.of_sublist; simp [Actor.queued])
    | (apply Or.inl
       simp only [docsOf_append, docsOf_cons_doc, docsOf_cons_error, docsOf_nil, Actor.queued,
         List.append_nil]
       exact (ScanSub.of_sublist (List.sublist_append_left _ _)).append_unscanned (by simp))

/-- **`projectAndUpdate`'s tails only set its wait, or output its document and end.** -/
theorem pauOutput_hist {y : Exec} {i : Nat} {l : List Msg} (st : ProjectAndUpdate)
    (hl : y.sentAt i = some l) (ha : (y.actorAt i).isSome) :
    ∀ a' l', (pauOutput y i st).actorAt i = some a' → (pauOutput y i st).sentAt i = some l' →
      (a' = .finished ∨ a'.input? = some st.input) ∧
      (docsOf l' ++ a'.queued).Sublist (docsOf l ++ st.firstDoc.toList) := by
  obtain ⟨a0, ha0⟩ := Option.isSome_iff_exists.1 ha
  unfold pauOutput
  split <;> intro a' l' ha' hl' <;> simp [ha0, hl] at ha' hl' <;> subst ha' hl' <;> simp_all


theorem pauProjectNew_hist {y : Exec} {i : Nat} {l : List Msg} (st : ProjectAndUpdate)
    (hl : y.sentAt i = some l) (ha : (y.actorAt i).isSome) :
    ∀ a' l', (pauProjectNew y i st).actorAt i = some a' → (pauProjectNew y i st).sentAt i = some l' →
      (a' = .finished ∨ a'.input? = some st.input) ∧
      (docsOf l' ++ a'.queued).Sublist (docsOf l ++ st.firstDoc.toList) := by
  obtain ⟨a0, ha0⟩ := Option.isSome_iff_exists.1 ha
  unfold pauProjectNew
  split
  · intro a' l' ha' hl'; simp [ha0, hl] at ha' hl'; subst ha' hl'; simp [Actor.input?, Actor.queued]
  · exact pauOutput_hist st hl ha

theorem pauCommit_hist {y : Exec} {i : Nat} {l : List Msg} (st : ProjectAndUpdate)
    (hl : y.sentAt i = some l) (ha : (y.actorAt i).isSome) :
    ∀ a' l', (pauCommit y i st).actorAt i = some a' → (pauCommit y i st).sentAt i = some l' →
      (a' = .finished ∨ a'.input? = some st.input) ∧
      (docsOf l' ++ a'.queued).Sublist (docsOf l ++ st.firstDoc.toList) := by
  obtain ⟨a0, ha0⟩ := Option.isSome_iff_exists.1 ha
  unfold pauCommit
  split
  · intro a' l' ha' hl'; simp [ha0, hl] at ha' hl'; subst ha' hl'; simp_all [Actor.input?, Actor.queued]
  · exact pauProjectNew_hist st hl ha

theorem pauMutate_hist {y : Exec} {i : Nat} {l : List Msg} (st : ProjectAndUpdate)
    (hl : y.sentAt i = some l) (ha : (y.actorAt i).isSome) :
    ∀ a' l', (pauMutate y i st).actorAt i = some a' → (pauMutate y i st).sentAt i = some l' →
      (a' = .finished ∨ a'.input? = some st.input) ∧
      (docsOf l' ++ a'.queued).Sublist (docsOf l ++ st.firstDoc.toList) := by
  obtain ⟨a0, ha0⟩ := Option.isSome_iff_exists.1 ha
  unfold pauMutate
  split
  · intro a' l' ha' hl'; simp [ha0, hl] at ha' hl'; subst ha' hl'; simp_all [Actor.input?, Actor.queued]
  · split
    · intro a' l' ha' hl'; simp [ha0, hl] at ha' hl'; subst ha' hl'; simp [Actor.input?, Actor.queued]
    · exact pauCommit_hist st hl ha

theorem pauProjectOld_hist {y : Exec} {i : Nat} {l : List Msg} (st : ProjectAndUpdate)
    (hl : y.sentAt i = some l) (ha : (y.actorAt i).isSome) :
    ∀ a' l', (pauProjectOld y i st).actorAt i = some a' → (pauProjectOld y i st).sentAt i = some l' →
      (a' = .finished ∨ a'.input? = some st.input) ∧
      (docsOf l' ++ a'.queued).Sublist (docsOf l ++ st.firstDoc.toList) := by
  obtain ⟨a0, ha0⟩ := Option.isSome_iff_exists.1 ha
  unfold pauProjectOld
  split
  · intro a' l' ha' hl'; simp [ha0, hl] at ha' hl'; subst ha' hl'; simp [Actor.input?, Actor.queued]
  · exact pauMutate_hist st hl ha

theorem projectAndUpdate_linkStep {st : ProjectAndUpdate} {ev : Event} {x y : Exec} {i : Nat}
    {l : List Msg} (h : projectAndUpdate x i st ev = some y)
    (ha : x.actorAt i = some (.projectAndUpdate st)) (hl : x.sentAt i = some l) :
    ∀ a' l', y.actorAt i = some a' → y.sentAt i = some l' →
      (a' = .finished ∨ a'.input? = some st.input) ∧
      LinkStep x y st.input (docsOf l ++ st.firstDoc.toList) (docsOf l' ++ a'.queued) := by
  intro a' l' ha' hl'
  have hs : (x.actorAt i).isSome := by simp [ha]
  unfold projectAndUpdate at h
  repeat' split at h
  all_goals cases h
  · obtain ⟨h1, h2⟩ := pauProjectOld_hist _ (by simpa using hl) (by simpa using hs) a' l' ha' hl'
    exact ⟨h1, LinkStep.take ‹_› (pauProjectOld_frame (.refl i _) _)
      (ScanSub.of_sublist (h2.trans (by simp)))⟩
  · obtain ⟨h1, h2⟩ := pauProjectOld_hist _ (by simpa using hl) (by simpa using hs) a' l' ha' hl'
    exact ⟨h1, Or.inl (ScanSub.of_sublist h2)⟩
  · simp [ha, hl] at ha' hl'; subst ha' hl'; exact ⟨Or.inl rfl, Or.inl (ScanSub.of_sublist (by simp))⟩
  · obtain ⟨h1, h2⟩ := pauMutate_hist _ hl hs a' l' ha' hl'
    exact ⟨h1, Or.inl (ScanSub.of_sublist h2)⟩
  · obtain ⟨h1, h2⟩ := pauCommit_hist _ hl hs a' l' ha' hl'
    exact ⟨h1, Or.inl (ScanSub.of_sublist h2)⟩
  · simp [ha, hl] at ha' hl'; subst ha' hl'; exact ⟨Or.inr rfl, Or.inl (ScanSub.refl _)⟩
  · obtain ⟨h1, h2⟩ := pauCommit_hist _ (by simpa using hl) (by simpa using hs) a' l' ha' hl'
    refine ⟨h1, Or.inl ((ScanSub.of_sublist h2).trans ?_)⟩
    exact (ScanSub.of_sublist (List.sublist_append_left _ _)).append_unscanned (by simp)
  · obtain ⟨h1, h2⟩ := pauProjectNew_hist _ hl hs a' l' ha' hl'
    exact ⟨h1, Or.inl (ScanSub.of_sublist h2)⟩
  · obtain ⟨h1, h2⟩ := pauOutput_hist _ hl hs a' l' ha' hl'
    exact ⟨h1, Or.inl (ScanSub.of_sublist h2)⟩


/-! ### Range readers -/

theorem ScanLink.sound {sc : Nat × Nat} {s : Nat} {H : List ScanReturned} {rest : List Key}
    (h : ScanLink B sc s H rest) : Sound B sc H := Sound.of_scan h.1 h.2.1 h.2.2

theorem doPKScan_opInv {st : PKScan} {ev : Event} {x y : Exec} {i : Nat} {l : List Msg}
    (hinv : OpInv B scope x i) (ha : x.actorAt i = some (.pkScan st)) (hl : x.sentAt i = some l)
    (h : doPKScan env x i st ev = some y) : OpInv B scope y i := by
  obtain ⟨hsound, hs, hid, hord⟩ := hinv _ _ ha hl
  simp only [Actor.queued, List.append_nil] at hsound hs hid hord
  intro a' l' ha' hl'
  unfold doPKScan at h
  repeat' split at h
  all_goals cases h
  all_goals simp [ha, hl] at ha' hl'
  all_goals subst ha' hl'
  all_goals simp only [Actor.queued, List.append_nil, docsOf_append, docsOf_cons_doc, docsOf_cons_error, docsOf_nil]
  all_goals first
    | exact ⟨hsound, ActorLink.finished⟩
    | refine (fun h => ⟨ScanLink.sound h, h⟩) ⟨hs, fun d hd => ?_, ?_⟩
  all_goals first
    | exact hid d hd
    | (simp only [List.mem_append, List.mem_singleton] at hd; rcases hd with hd | rfl; exacts [hid d hd, rfl])
    | simpa [ReadWait.pending, *] using hord
    | exact hord.sublist (by simp [ReadWait.pending, *])

/-! ### `doUnion` -/

theorem doUnion_step {st : Union} {ev : Event} {x y : Exec} {i : Nat} {l : List Msg}
    (h : doUnion x i st ev = some y) (ha : x.actorAt i = some (.union st)) (hl : x.sentAt i = some l) :
    ∀ a' l', y.actorAt i = some a' → y.sentAt i = some l' →
      (a' = .finished ∨ ∃ st', a' = .union st' ∧ st'.a = st.a ∧ st'.b = st.b) ∧
      (docsOf l' = docsOf l ∨ ∃ j d, (j = st.a ∨ j = st.b) ∧ x.peek j = some (.doc d) ∧
        x.takenDocs j ++ [d] <+: y.takenDocs j ∧ docsOf l' = docsOf l ++ [d]) := by
  intro a' l' ha' hl'
  unfold doUnion unionEndOfStream at h
  repeat' split at h
  all_goals cases h
  all_goals simp [ha, hl] at ha' hl'
  all_goals subst ha' hl'
  all_goals refine ⟨by simp, ?_⟩
  -- a forwarded document: close the side's `peek` first, so the other side fails at once
  all_goals first
    | (left; simp; done)
    | (refine Or.inr ⟨st.a, ?_, Or.inl rfl, ?hp, ?_, ?_⟩
       case hp => assumption
       exacts [Exec.peek_doc_forward ‹_›, by simp])
    | (refine Or.inr ⟨st.b, ?_, Or.inr rfl, ?hp, ?_, ?_⟩
       case hp => assumption
       exacts [Exec.peek_doc_forward ‹_›, by simp])

theorem scanKeys_snoc_of_ne {s : Nat} {d : ScanReturned} (hd : d.scanId ≠ s) (ds : List ScanReturned) :
    scanKeys s (ds ++ [d]) = scanKeys s ds := by
  simp [hd]

/-- **`doUnion`'s step keeps its invariant.** A document it forwards from one input is of a
scan of that input's scope, which is where the link reads it. -/
theorem OpInv.of_unionStep {x y : Exec} {i : Nat} {st : Union} {l : List Msg}
    (hinv : ∀ k, OpInv B scope x k) (hf : Exec.Frame i x y) (ha : x.actorAt i = some (.union st))
    (hl : x.sentAt i = some l)
    (hstep : ∀ a' l', y.actorAt i = some a' → y.sentAt i = some l' →
      (a' = .finished ∨ ∃ st', a' = .union st' ∧ st'.a = st.a ∧ st'.b = st.b) ∧
      (docsOf l' = docsOf l ∨ ∃ j d, (j = st.a ∨ j = st.b) ∧ x.peek j = some (.doc d) ∧
        x.takenDocs j ++ [d] <+: y.takenDocs j ∧ docsOf l' = docsOf l ++ [d])) :
    OpInv B scope y i := by
  obtain ⟨hsound, hwa, hwb, hdisj, hsub⟩ := hinv i _ l ha hl
  simp only [Actor.queued, List.append_nil] at hsound hsub
  have hside : ∀ s, (if s < (scope st.a).2 then x.takenDocs st.a else x.takenDocs st.b) <+:
      (if s < (scope st.a).2 then y.takenDocs st.a else y.takenDocs st.b) := fun s => by
    split <;> exact hf.takenDocs_grows _
  intro a' l' ha' hl'
  obtain ⟨hshape, hdocs⟩ := hstep a' l' ha' hl'
  have hq : a'.queued = [] := by rcases hshape with rfl | ⟨st', rfl, -⟩ <;> rfl
  rw [hq, List.append_nil]
  have hgrow : ∀ s, (scanKeys s (docsOf l')).Sublist
      (scanKeys s (if s < (scope st.a).2 then y.takenDocs st.a else y.takenDocs st.b)) ∧
      OrderedIn (B s) (scanKeys s (docsOf l')) ∧ (scanKeys s (docsOf l') ≠ [] → InScope (scope i) s) := by
    intro s
    have hsame : scanKeys s (docsOf l') = scanKeys s (docsOf l) → (scanKeys s (docsOf l')).Sublist
        (scanKeys s (if s < (scope st.a).2 then y.takenDocs st.a else y.takenDocs st.b)) ∧
        OrderedIn (B s) (scanKeys s (docsOf l')) ∧ (scanKeys s (docsOf l') ≠ [] → InScope (scope i) s) :=
      fun h => h ▸ ⟨(hsub s).trans (ScanSub.of_isPrefix (hside s) s), hsound.ordered s, hsound.inScope s⟩
    rcases hdocs with heq | ⟨j, d, hj, hpeek, htaken, heq⟩
    · exact hsame (by rw [heq])
    by_cases hd : d.scanId = s
    · obtain ⟨Hj, hSj, hTj⟩ := OpInv.taken_snoc hinv hpeek
      have hsj : InScope (scope j) s := hSj.inScope s fun h0 => by
        have := List.eq_nil_of_sublist_nil (h0 ▸ hTj s); simp [hd] at this
      have hpick : ∀ z : Exec, (if s < (scope st.a).2 then z.takenDocs st.a else z.takenDocs st.b) =
          z.takenDocs j := fun z => by
        rcases hj with rfl | rfl
        · exact if_pos hsj.2
        · exact if_neg (by have := hsj.1; omega)
      have hw : Within (scope j) (scope i) := by rcases hj with rfl | rfl <;> assumption
      have hnew : (scanKeys s (docsOf l')).Sublist (scanKeys s (x.takenDocs j ++ [d])) := by
        rw [heq, scanKeys_append, scanKeys_append]
        exact ((hpick x) ▸ hsub s).append (List.Sublist.refl _)
      refine ⟨hpick y ▸ hnew.trans (ScanSub.of_isPrefix htaken s), (hSj.ordered s).sublist (hnew.trans (hTj s)),
        fun _ => hw.inScope hsj⟩
    · exact hsame (by rw [heq, scanKeys_snoc_of_ne hd])
  refine ⟨⟨fun s => (hgrow s).2.1, fun s => (hgrow s).2.2⟩, ?_⟩
  rcases hshape with rfl | ⟨st', rfl, hsa, hsb⟩
  · exact ActorLink.finished
  · exact ⟨hsa ▸ hwa, hsb ▸ hwb, hsa ▸ hsb ▸ hdisj, fun s => hsa ▸ hsb ▸ (hgrow s).1⟩


theorem toDocInfo_opInv {st : DocInfo} {ev : Event} {x y : Exec} {i : Nat} {l : List Msg}
    (hinv : OpInv B scope x i) (ha : x.actorAt i = some (.docInfo st)) (hl : x.sentAt i = some l)
    (h : toDocInfo env x i st ev = some y) : OpInv B scope y i := by
  obtain ⟨hsound, hs, hid, hord⟩ := hinv _ _ ha hl
  simp only [Actor.queued, List.append_nil] at hsound hs hid hord
  intro a' l' ha' hl'
  unfold toDocInfo at h
  repeat' split at h
  all_goals cases h
  all_goals simp [ha, hl] at ha' hl'
  all_goals subst ha' hl'
  all_goals simp only [Actor.queued, List.append_nil, docsOf_append, docsOf_cons_doc, docsOf_cons_error, docsOf_nil]
  all_goals first
    | exact ⟨hsound, ActorLink.finished⟩
    | refine (fun h => ⟨ScanLink.sound h, h⟩) ⟨hs, fun d hd => ?_, ?_⟩
  all_goals first
    | exact hid d hd
    | (simp only [List.mem_append, List.mem_singleton] at hd; rcases hd with hd | rfl; exacts [hid d hd, rfl])
    | simpa [ReadWait.pending, *] using hord

theorem doSinglePKLookup_opInv {st : SinglePKLookup} {ev : Event} {x y : Exec} {i : Nat}
    {l : List Msg} (hinv : OpInv B scope x i) (ha : x.actorAt i = some (.singlePKLookup st))
    (hl : x.sentAt i = some l) (h : doSinglePKLookup env x i st ev = some y) : OpInv B scope y i := by
  obtain ⟨hsound, ⟨hs, hid, hord⟩, hnil⟩ := hinv _ _ ha hl
  simp only [Actor.queued, List.append_nil] at hsound hs hid hord hnil
  intro a' l' ha' hl'
  unfold doSinglePKLookup at h
  repeat' split at h
  all_goals cases h
  all_goals simp [ha, hl] at ha' hl'
  all_goals subst ha' hl'
  all_goals simp only [Actor.queued, List.append_nil, docsOf_append, docsOf_cons_doc, docsOf_cons_error, docsOf_nil]
  all_goals first
    | exact ⟨hsound, ActorLink.finished⟩
    | exact ⟨hsound, ⟨hs, hid, hord⟩, hnil⟩
    | refine ⟨Sound.of_scan hs ?_ (?_ : OrderedIn _ (_ ++ [])), ActorLink.finished⟩
  all_goals simp_all

theorem doIndexInsert_opInv {st : IndexInsert} {ev : Event} {x y : Exec} {i : Nat}
    {l : List Msg} (hinv : OpInv B scope x i) (ha : x.actorAt i = some (.indexInsert st))
    (hl : x.sentAt i = some l) (h : doIndexInsert env x i st ev = some y) : OpInv B scope y i := by
  obtain ⟨hsound, -⟩ := hinv _ _ ha hl
  simp only [Actor.queued, List.append_nil] at hsound
  intro a' l' ha' hl'
  unfold doIndexInsert at h
  repeat' split at h
  all_goals cases h
  all_goals simp [ha, hl] at ha' hl'
  all_goals subst ha' hl'
  all_goals simp only [Actor.queued, List.append_nil, docsOf_append, docsOf_cons_doc, docsOf_cons_error, docsOf_nil]
  all_goals refine ⟨?_, fun _ h => by cases h⟩
  all_goals first
    | exact hsound
    | exact hsound.mono ((ScanSub.refl _).append_unscanned (by simp)) (Within.refl _)

theorem doInsert_opInv {st : InsertDocs} {ev : Event} {x y : Exec} {i : Nat}
    {l : List Msg} (hinv : OpInv B scope x i) (ha : x.actorAt i = some (.insert st))
    (hl : x.sentAt i = some l) (h : doInsert x i st ev = some y) : OpInv B scope y i := by
  obtain ⟨hsound, -⟩ := hinv _ _ ha hl
  simp only [Actor.queued, List.append_nil] at hsound
  intro a' l' ha' hl'
  unfold doInsert insertLoop at h
  repeat' split at h
  all_goals cases h
  all_goals simp [ha, hl] at ha' hl'
  all_goals subst ha' hl'
  all_goals simp only [Actor.queued, List.append_nil, docsOf_append, docsOf_cons_doc, docsOf_cons_error, docsOf_nil]
  all_goals refine ⟨?_, fun _ h => by cases h⟩
  all_goals first
    | exact hsound
    | exact hsound.mono ((ScanSub.refl _).append_unscanned (by simp)) (Within.refl _)

/-! ### Every step -/

/-- **Every step keeps every operation's invariant.** The mover is handled by its actor's
lemma, the others by the frame. -/
theorem OpInv.step {x y : Exec} {i : Nat} {ev : Event} (hinv : ∀ k, OpInv B scope x k)
    (h : x.step env i ev = some y) (k : Nat) : OpInv B scope y k := by
  have hf := step_frame h
  by_cases hk : k = i
  · subst hk
    simp only [Exec.step, headQueueActor_eq] at h
    split at h
    · cases h
    rename_i o ho
    have ha : x.actorAt k = some o.actor := by simp [Exec.actorAt, ho]
    have hl : x.sentAt k = some o.output.sent := by simp [Exec.sentAt, ho]
    split at h <;> rename_i hact <;> rw [hact] at ha
    · exact doPKScan_opInv (hinv k) ha hl h
    · exact toDocInfo_opInv (hinv k) ha hl h
    · exact doSinglePKLookup_opInv (hinv k) ha hl h
    · exact OpInv.of_linkStep hinv hf ha hl rfl (headQueueStep_linkStep h ha hl)
    · exact OpInv.of_linkStep hinv hf ha hl rfl (scanAndBuildIndex_linkStep h ha hl)
    · exact OpInv.of_linkStep hinv hf ha hl rfl (doUpdate_linkStep h ha hl)
    · exact OpInv.of_unionStep hinv hf ha hl (doUnion_step h ha hl)
    · exact OpInv.of_linkStep hinv hf ha hl rfl (doSkip_linkStep h ha hl)
    · exact OpInv.of_linkStep hinv hf ha hl rfl (projectAndUpdate_linkStep h ha hl)
    · exact doIndexInsert_opInv (hinv k) ha hl h
    · exact doInsert_opInv (hinv k) ha hl h
    · cases h
  · exact (hinv k).frame_ne hf hk

/-- **The final consumer keeps every operation's invariant.** -/
theorem OpInv.consume {x y : Exec} {root : Nat} (hinv : ∀ k, OpInv B scope x k)
    (h : x.consume root = some y) (k : Nat) : OpInv B scope y k :=
  (hinv k).frame_ne (consume_frame h (k + 1)) (by omega)

end Invariant

/-! ## (4) What `execute` establishes -/

section Start

open PlanCheckpoint

variable (B : Nat → Key × Key)

/-- **The link of a freshly registered actor**: a range reader's scan is in its scope and its
keys are ordered in the scan's bounds; an actor that reads other operations reads earlier
ones, of scopes inside its own, and `doUnion`'s two have disjoint scopes. -/
def StartLink (scope : Nat → Nat × Nat) (k : Nat) : Actor → Prop
  | .pkScan st => InScope (scope k) st.scanId ∧ OrderedIn (B st.scanId) (st.wait.pending ++ st.kvs)
  | .docInfo st => InScope (scope k) st.scanId ∧ OrderedIn (B st.scanId) (st.wait.pending ++ st.kvs)
  | .singlePKLookup st => InScope (scope k) st.scanId ∧ OrderedIn (B st.scanId) [st.key]
  | .union st => st.a < k ∧ st.b < k ∧ Within (scope st.a) (scope k) ∧
      Within (scope st.b) (scope k) ∧ (scope st.a).2 ≤ (scope st.b).1
  | a => ∀ j, a.input? = some j → j < k ∧ Within (scope j) (scope k)

/-- **Every registered operation is fresh and linked**: it has sent no document and holds
none. -/
def StartInv (scope : Nat → Nat × Nat) (ops : List Op) : Prop :=
  ∀ k o, ops[k]? = some o →
    docsOf o.output.sent = [] ∧ o.actor.queued = [] ∧ StartLink B scope k o.actor

variable {B}

theorem StartLink.congr {scope scope' : Nat → Nat × Nat} {k : Nat} {a : Actor}
    (hs : ∀ j ≤ k, scope' j = scope j) (h : StartLink B scope k a) : StartLink B scope' k a := by
  cases a with
  | union st =>
    obtain ⟨ha, hb, h1, h2, h3⟩ := h
    rw [StartLink, hs k le_rfl, hs _ ha.le, hs _ hb.le]
    exact ⟨ha, hb, h1, h2, h3⟩
  | pkScan | docInfo | singlePKLookup => simpa only [StartLink, hs k le_rfl] using h
  | _ => exact fun j hj => by rw [hs k le_rfl, hs j (h j hj).1.le]; exact h j hj

/-- **Registering a fresh operation** keeps every registered one fresh and linked. -/
theorem StartInv.push {scope : Nat → Nat × Nat} {ops : List Op} (h : StartInv B scope ops)
    (a : Actor) (o : Stream) (hfresh : docsOf o.sent = [] ∧ a.queued = []) (sc : Nat × Nat)
    (hlink : StartLink B (Function.update scope ops.length sc) ops.length a) :
    StartInv B (Function.update scope ops.length sc) (ops ++ [⟨a, o⟩]) := by
  intro k o' hk
  rcases lt_trichotomy k ops.length with hlt | rfl | hgt
  · rw [List.getElem?_append_left hlt] at hk
    obtain ⟨h1, h2, h3⟩ := h k o' hk
    exact ⟨h1, h2, h3.congr fun j hj => Function.update_noteq (by omega) _ _⟩
  · simp only [List.getElem?_append_right le_rfl, Nat.sub_self, List.getElem?_cons_zero,
      Option.some.injEq] at hk
    subst hk; exact ⟨hfresh.1, hfresh.2, hlink⟩
  · rw [List.getElem?_eq_none (by simp; omega)] at hk; cases hk

/-- **A fresh, linked execution satisfies the invariant.** -/
theorem StartInv.opInv {scope : Nat → Nat × Nat} {cp : PlanCheckpoint} (h : StartInv B scope cp.ops)
    (effects : List Effect) (n : Nat) (k : Nat) : OpInv B scope ⟨cp, effects, n⟩ k := by
  intro a l ha hl
  simp only [Exec.actorAt, Exec.sentAt, Exec.op?] at ha hl
  cases ho : cp.ops[k]? with
  | none => simp [ho] at ha
  | some o =>
    simp only [ho, Option.map_some', Option.some.injEq] at ha hl
    subst ha hl
    obtain ⟨hs, hq, hl⟩ := h k o ho
    rw [hs, hq]
    refine ⟨Sound.nil _, ?_⟩
    cases ha : o.actor <;> rw [ha] at hl
    case pkScan | docInfo => exact ⟨hl.1, by simp, by simpa using hl.2⟩
    case singlePKLookup => exact ⟨⟨hl.1, by simp, by simpa using hl.2⟩, rfl⟩
    case union => exact ⟨hl.2.2.1, hl.2.2.2.1, hl.2.2.2.2, fun s => by simp⟩
    all_goals exact fun j hj => ⟨(hl j hj).2, fun s => by simp⟩

/-- **A range read is ordered in the scan's bounds** when it starts at or above the lower bound
and every key it may return is below the upper bound and `"\xff"`. -/
theorem orderedIn_getDescendants {t : List Key} (ht : t.Sorted (· < ·)) {bounds : Key × Key}
    {lo hi : Key} (hlo : bounds.1 ≤ lo) (hhi : ∀ k, lo ≤ k → k < hi → k < bounds.2)
    (hend : bounds.2 ≤ allKeysEnd) : OrderedIn bounds ([] ++ getDescendants t lo hi) := by
  refine ⟨ht.filter _, fun k hk => ?_⟩
  simp only [List.nil_append, getDescendants, List.mem_filter, decide_eq_true_eq] at hk
  have := hhi k hk.2.1 hk.2.2
  exact ⟨hlo.trans hk.2.1, this, lt_of_lt_of_le this hend⟩

theorem startLink_of_input {scope : Nat → Nat × Nat} {k : Nat} {a : Actor} (j : Nat)
    (hj : a.input? = some j) : StartLink B scope k a ↔ j < k ∧ Within (scope j) (scope k) := by
  cases a <;> simp_all [StartLink, Actor.input?]

theorem StartInv.register {scope : Nat → Nat × Nat} {cp : PlanCheckpoint}
    (h : StartInv B scope cp.ops) {a : Actor} (sc : Nat × Nat)
    (hlink : StartLink B (Function.update scope cp.ops.length sc) cp.ops.length a)
    (hq : a.queued = []) : StartInv B (Function.update scope cp.ops.length sc) (cp.register a).1.ops :=
  h.push a .empty ⟨rfl, hq⟩ sc hlink

theorem StartInv.registerEnded {scope : Nat → Nat × Nat} {cp : PlanCheckpoint}
    (h : StartInv B scope cp.ops) (sc : Nat × Nat) :
    StartInv B (Function.update scope cp.ops.length sc) cp.registerEnded.1.ops :=
  h.push .finished (Stream.empty.send (.error .endOfStream)) ⟨rfl, rfl⟩ sc fun _ h => by cases h

/-- **`execute` establishes the start invariant**, giving the plan's output the scope of the
scans it added. -/
theorem execute_startInv (hbnd : ∀ s, (B s).2 ≤ allKeysEnd) : ∀ (p : Plan) {cp cp' : PlanCheckpoint}
    {r : Nat} {scope : Nat → Nat × Nat}, (∀ s, cp.getBounds s = B s) → StartInv B scope cp.ops →
    p.execute env cp = some (cp', r) →
    ∃ scope', StartInv B scope' cp'.ops ∧ Within (scope' r) (cp.scansAdded, cp'.scansAdded) ∧
      ∀ k < cp.ops.length, scope' k = scope k
  | .tableScan, cp, _, _, scope, hB, hinv, h => by
    simp only [Plan.execute, Option.pure_def, Option.some.injEq, Prod.ext_iff] at h
    obtain ⟨rfl, rfl⟩ := h
    refine ⟨_, StartInv.register (by simpa using hinv) (cp.scansAdded, cp.scansAdded + 1) ?_ rfl,
      by simp [Within], fun k hk => Function.update_noteq (by simp; omega) _ _⟩
    simp only [StartLink, Function.update_same, addScan_ops, addScan_id, InScope, le_refl,
      Nat.lt_succ_self, true_and, ReadWait.pending]
    rw [getBounds_addScan, hB]
    exact orderedIn_getDescendants env.table_sorted (le_max_right _ _)
      (fun k h1 h2 => lt_of_lt_of_le (lt_of_le_of_lt_max h1 h2) (min_le_right _ _)) (hbnd _)
  | .primaryKeyLookup b e, cp, _, _, scope, hB, hinv, h => by
    have hinv0 : StartInv B scope cp.addScan.1.ops := by simpa using hinv
    have hB0 : cp.addScan.1.getBounds cp.addScan.2 = B cp.scansAdded :=
      (getBounds_addScan _ _).trans (hB _)
    have hagree : ∀ sc, ∀ k < cp.ops.length, Function.update scope cp.addScan.1.ops.length sc k = scope k :=
      fun _ k hk => Function.update_noteq (by simp; omega) _ _
    have range : ∀ {cp' r}, (∃ a, scanRange b e (cp.addScan.1.getBounds cp.addScan.2) = some a ∧
        cp.addScan.1.register (.pkScan ⟨cp.addScan.2, getDescendants env.table a.1 a.2, [], [], .nextKey⟩)
          = (cp', r)) → ∃ scope', StartInv B scope' cp'.ops ∧
          Within (scope' r) (cp.scansAdded, cp'.scansAdded) ∧ ∀ k < cp.ops.length, scope' k = scope k := by
      rintro _ _ ⟨rg, hrg, h⟩
      rw [Prod.ext_iff] at h
      obtain ⟨rfl, rfl⟩ := h
      obtain ⟨hlo, hhi⟩ := scanRange_within hrg
      refine ⟨_, StartInv.register hinv0 (cp.scansAdded, cp.scansAdded + 1) ?_ rfl, by simp [Within],
        hagree _⟩
      simp only [StartLink, Function.update_same, addScan_id, InScope, le_refl, Nat.lt_succ_self,
        true_and, ReadWait.pending]
      rw [hB0] at hlo hhi
      exact orderedIn_getDescendants env.table_sorted hlo hhi (hbnd _)
    rcases b with _ | b <;> rcases e with _ | e <;> simp only [Plan.execute, Option.bind_eq_bind,
      Option.bind_eq_some, Option.pure_def, Option.some.injEq] at h
    iterate 3 exact range h
    split at h
    · split at h <;> simp only [Option.some.injEq, Prod.ext_iff] at h <;> obtain ⟨rfl, rfl⟩ := h
      · rename_i hin
        rw [hB0] at hin
        refine ⟨_, StartInv.register hinv0 (cp.scansAdded, cp.scansAdded + 1) ?_ rfl, by simp [Within],
          hagree _⟩
        refine ⟨by simp [InScope], List.sorted_singleton _, fun k hk => ?_⟩
        obtain rfl := List.mem_singleton.1 hk
        exact ⟨hin.1, hin.2, lt_of_lt_of_le hin.2 (hbnd _)⟩
      · exact ⟨_, StartInv.registerEnded hinv0 (cp.scansAdded, cp.scansAdded + 1), by simp [Within],
          hagree _⟩
    · simp only [Option.bind_eq_some, Option.some.injEq] at h
      exact range h
  | .indexScan index b e, cp, _, _, scope, hB, hinv, h => by
    have hinv0 : StartInv B scope cp.addScan.1.ops := by simpa using hinv
    simp only [Plan.execute, Option.bind_eq_bind, Option.bind_eq_some, Option.pure_def,
      Option.some.injEq] at h
    obtain ⟨rg, hrg, h⟩ := h
    obtain ⟨hlo, hhi⟩ := scanRange_within hrg
    rw [getBounds_addScan, hB] at hlo hhi
    have hdoc : StartLink B (Function.update scope cp.ops.length (cp.scansAdded, cp.scansAdded + 1))
        cp.ops.length (.docInfo ⟨cp.scansAdded, getDescendants (env.indexEntries index) rg.1 rg.2, [], .nextKey⟩) :=
      ⟨by simp [InScope], orderedIn_getDescendants (env.indexEntries_sorted index) hlo hhi (hbnd _)⟩
    have hreg := StartInv.register hinv0 _ hdoc rfl
    split at h <;> simp only [Option.some.injEq, Prod.ext_iff] at h <;> obtain ⟨rfl, rfl⟩ := h
    · exact ⟨_, hreg, by simp [Within], fun k hk => Function.update_noteq (by simp; omega) _ _⟩
    · refine ⟨_, StartInv.register hreg (cp.scansAdded, cp.scansAdded + 1) ?_ rfl, by simp [Within],
        fun k hk => by simp [Function.update_noteq, show k ≠ cp.ops.length by omega,
          show k ≠ cp.ops.length + 1 by omega]⟩
      refine (startLink_of_input cp.ops.length ?_).2 ⟨by simp, ?_⟩
      · rfl
      simp [Function.update_apply, Within]
  | .filter src _, cp, _, _, scope, hB, hinv, h | .projection src, cp, _, _, scope, hB, hinv, h
  | .flushChanges src, cp, _, _, scope, hB, hinv, h
  | .projectAndUpdate src _ _, cp, _, _, scope, hB, hinv, h
  | .buildIndex src, cp, _, _, scope, hB, hinv, h => by
    simp only [Plan.execute, Option.bind_eq_bind, Option.bind_eq_some, Option.pure_def,
      Option.some.injEq, Prod.ext_iff] at h
    obtain ⟨⟨cp1, j⟩, h1, rfl, rfl⟩ := h
    obtain ⟨e1, hj⟩ := Plan.execute_shape src h1
    obtain ⟨scope1, hinv1, hw1, hag1⟩ := execute_startInv hbnd src hB hinv h1
    have := e1.ops.length_le
    refine ⟨_, StartInv.register hinv1 (scope1 j) ((startLink_of_input j (by rfl)).2 ⟨by omega, ?_⟩)
      (by rfl), by simpa using hw1, fun k hk => ?_⟩
    · simp [Function.update_apply, show j ≠ cp1.ops.length by omega, Within.refl]
    · rw [Function.update_apply, if_neg (by omega)]; exact hag1 k hk
  | .skip src _, cp, _, _, scope, hB, hinv, h | .update src _ _, cp, _, _, scope, hB, hinv, h => by
    simp only [Plan.execute, Option.bind_eq_bind, Option.bind_eq_some, Option.pure_def,
      Option.some.injEq, Prod.ext_iff] at h
    obtain ⟨⟨cp1, j⟩, h1, rfl, rfl⟩ := h
    obtain ⟨e1, hj⟩ := Plan.execute_shape src h1
    obtain ⟨scope1, hinv1, hw1, hag1⟩ := execute_startInv hbnd src hB hinv h1
    have := e1.ops.length_le
    refine ⟨_, StartInv.register (by simpa using hinv1) (scope1 j)
      ((startLink_of_input j (by rfl)).2 ⟨by simp; omega, ?_⟩) (by rfl), by simpa using hw1,
      fun k hk => ?_⟩
    · simp [Function.update_apply, show j ≠ cp1.ops.length by omega, Within.refl]
    · rw [Function.update_apply, if_neg (by simp; omega)]; exact hag1 k hk
  | .union p1 p2, cp, _, _, scope, hB, hinv, h => by
    simp only [Plan.execute, Option.bind_eq_bind, Option.bind_eq_some, Option.pure_def,
      Option.some.injEq, Prod.ext_iff] at h
    obtain ⟨⟨cp1, a⟩, h1, ⟨cp2, b⟩, h2, rfl, rfl⟩ := h
    dsimp only at h2
    obtain ⟨e1, ha⟩ := Plan.execute_shape p1 h1
    obtain ⟨e2, hb⟩ := Plan.execute_shape p2 h2
    obtain ⟨scope1, hinv1, hw1, hag1⟩ := execute_startInv hbnd p1 hB hinv h1
    obtain ⟨scope2, hinv2, hw2, hag2⟩ :=
      execute_startInv hbnd p2 (fun s => (e1.getBounds s).trans (hB s)) hinv1 h2
    have := e1.ops.length_le
    have := e2.ops.length_le
    have hsa := e1.scansAdded
    have hsb := e2.scansAdded
    have hsc2a : scope2 a = scope1 a := hag2 a (by omega)
    refine ⟨_, StartInv.register hinv2 (cp.scansAdded, cp2.scansAdded) ?_ (by rfl),
      by simp [Within], fun k hk => ?_⟩
    · have hac : a ≠ cp2.ops.length := by omega
      have hbc : b ≠ cp2.ops.length := by omega
      simp only [StartLink, Function.update_apply, hac, hbc, if_false, if_true, hsc2a]
      exact ⟨by omega, by omega, ⟨hw1.1, hw1.2.trans hsb⟩, ⟨hsa.trans hw2.1, hw2.2⟩,
        hw1.2.trans hw2.1⟩
    · rw [Function.update_apply, if_neg (by omega), hag2 k (by omega)]; exact hag1 k hk
  | .indexInsert _ _, cp, _, _, scope, _, hinv, h | .insert _, cp, _, _, scope, _, hinv, h => by
    simp only [Plan.execute, Option.pure_def, Option.some.injEq, Prod.ext_iff] at h
    obtain ⟨rfl, rfl⟩ := h
    exact ⟨_, StartInv.register hinv (cp.scansAdded, cp.scansAdded) (fun _ h => by cases h) (by rfl),
      by simp [Within], fun k hk => Function.update_noteq (by omega) _ _⟩
  | .empty, cp, _, _, scope, _, hinv, h => by
    simp only [Plan.execute, Option.pure_def, Option.some.injEq, Prod.ext_iff] at h
    obtain ⟨rfl, rfl⟩ := h
    exact ⟨_, StartInv.registerEnded hinv (cp.scansAdded, cp.scansAdded), by simp [Within],
      fun k hk => Function.update_noteq (by omega) _ _⟩

end Start

/-! ## (5) Every reachable state -/

/-- **A checkpoint a plan can be executed on**: no operation registered yet, and every scan
bounded below `"\xff"`, as the checkpoints `PlanCheckpoint()` and `stopAndCheckpoint()`
return are. -/
structure PlanCheckpoint.Startable (cp : PlanCheckpoint) : Prop where
  ops_eq : cp.ops = []
  bounds_le : ∀ s, (cp.getBounds s).2 ≤ allKeysEnd

theorem PlanCheckpoint.new_startable (permits : Nat) : (PlanCheckpoint.new permits).Startable :=
  ⟨rfl, fun _ => by simp [PlanCheckpoint.new, PlanCheckpoint.getBounds]⟩

/-- **Every reachable state satisfies the invariant**, for the bounds of the checkpoint the
plan was executed on. -/
theorem Reachable.exists_opInv {env : Env} {plan : Plan} {cp : PlanCheckpoint} {x : Exec}
    {root : Nat} (hcp : cp.Startable) (hx : Reachable env plan cp x root) :
    ∃ scope, ∀ k, OpInv cp.getBounds scope x k := by
  induction hx with
  | start h =>
    simp only [Exec.start, Option.map_eq_some'] at h
    obtain ⟨⟨cp', r⟩, hex, heq⟩ := h
    cases heq
    obtain ⟨scope, hs, -, -⟩ := execute_startInv hcp.bounds_le plan (fun _ => rfl)
      (show StartInv cp.getBounds (fun _ => (0, 0)) cp.ops from fun k o ho => by
        simp [hcp.ops_eq] at ho) hex
    exact ⟨scope, hs.opInv [] 0⟩
  | move c _ hm ih =>
    obtain ⟨scope, hinv⟩ := ih
    cases c with
    | step i ev => exact ⟨scope, OpInv.step hinv hm⟩
    | consume => exact ⟨scope, OpInv.consume hinv hm⟩

/-- **On every operator's output, each scan's documents carry strictly increasing scan keys,
inside the scan's bounds and below `"\xff"`** — in every reachable state of every plan
executed on a fresh or resumed checkpoint, whatever the interleaving. -/
theorem scanKeys_sent_ordered {env : Env} {plan : Plan} {cp : PlanCheckpoint} {x : Exec}
    {root : Nat} (hcp : cp.Startable) (hx : Reachable env plan cp x root) (k s : Nat) :
    OrderedIn (cp.getBounds s) (scanKeys s (x.sentDocs k)) := by
  obtain ⟨scope, hinv⟩ := hx.exists_opInv hcp
  unfold Exec.sentDocs
  cases hk : x.op? k with
  | none => exact OrderedIn.nil _
  | some o =>
    have := (hinv k o.actor o.output.sent (by simp [Exec.actorAt, hk])
      (by simp [Exec.sentAt, hk])).1.ordered s
    simpa using this.sublist (by simp)

/-- A table scan of the one-document collection, after it has sent its document. -/
theorem scanKeys_sent_ordered_tableScan :
    ∃ x, Reachable oneDocEnv .tableScan (PlanCheckpoint.new 100) x 0 ∧
      x.sentDocs 0 = [⟨.stored docKey, 0, docKey⟩] ∧
      OrderedIn ((PlanCheckpoint.new 100).getBounds 0) (scanKeys 0 (x.sentDocs 0)) := by
  have hr : Reachable oneDocEnv .tableScan (PlanCheckpoint.new 100) _ 0 :=
    Reachable.of_run rfl (show Exec.run oneDocEnv _ _ [.step 0 .input, .step 0 .complete] = some _ from rfl)
  exact ⟨_, hr, rfl, scanKeys_sent_ordered (PlanCheckpoint.new_startable 100) hr 0 0⟩

end DocLayer
