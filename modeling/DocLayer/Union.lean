import DocLayer.Run
import DocLayer.SplitBound

/-! # What `doUnion` emits

`doUnion` waits on both inputs at once and forwards whatever either one delivers, so its
output interleaves theirs. An input's `end_of_stream` closes that side; the output ends once
both sides are closed, or with the first other error.

Flow runs an actor waiting on a stream as soon as a message is sent on it. So the union meets
its inputs' messages one at a time, in the order they are sent, and handles each as it
arrives: the two producers are left open here, their messages arriving in any order
(`Exec.arrive`), each handled at once by the modelled `doUnion` when the union waits on that
side. Only `end_of_stream` is sent inside `execute` (`EmptyPlan`, a point lookup outside its
bounds), and the union handles two pending `end_of_stream`s as it handles them one after the
other. In this order the `ASSERT` of the catch block holds: when one side's `end_of_stream` is
handled, the other side's future has not failed, or that failure would have been handled
when it arrived.

* **`Interleaving`** — a list made of the items of two lists, each list's in its order.
* **`UnionRun`** — where a union can be, given the messages it took of each input.
* **`Exec.arrive`**, **`Exec.arriveAll`** — a message arriving on one side, and a sequence of
  them, from the union `UnionPlan::execute` starts (`unionStart`).
* **`EagerUnion`** — the union in Flow's order: having taken every message of a side it waits
  on. `EagerUnion.arrive` is its step lemma, `EagerUnion.arriveAll` its run lemma.
* **`UnionOutput`** — what a union owes its two inputs: the merge it is for.
* **`union_merges_inputs`** — for every order of arrivals, the union sends what
  `UnionOutput` says, never returns without ending its output, ends it once both inputs have
  ended, with `end_of_stream` exactly when both ended with it, and otherwise with an error one
  of the inputs raised. -/

namespace DocLayer

/-! ## Interleavings -/

/-- **`out` interleaves `as` and `bs`**: it is built by appending, one at a time, the next item
of either list. -/
inductive Interleaving : List ScanReturned → List ScanReturned → List ScanReturned → Prop
  | nil : Interleaving [] [] []
  | left {as bs out : List ScanReturned} (d : ScanReturned) :
      Interleaving as bs out → Interleaving (as ++ [d]) bs (out ++ [d])
  | right {as bs out : List ScanReturned} (d : ScanReturned) :
      Interleaving as bs out → Interleaving as (bs ++ [d]) (out ++ [d])

namespace Interleaving

variable {as bs out : List ScanReturned}

/-- **Nothing lost, nothing duplicated**: an interleaving is a permutation of the two lists. -/
theorem perm (h : Interleaving as bs out) : out.Perm (as ++ bs) := by
  induction h with
  | nil => exact .nil
  | @left as bs out d _ ih =>
    simpa using (List.perm_append_singleton d out).trans ((ih.cons d).trans List.perm_middle.symm)
  | right d _ ih => simpa using ih.append_right [d]

/-- **Each side's order is kept**: both lists are sublists of their interleaving. -/
theorem sublists (h : Interleaving as bs out) : as.Sublist out ∧ bs.Sublist out := by
  induction h with
  | nil => exact ⟨.slnil, .slnil⟩
  | left d _ ih => exact ⟨ih.1.append (.refl [d]), ih.2.trans (List.sublist_append_left _ _)⟩
  | right d _ ih => exact ⟨ih.1.trans (List.sublist_append_left _ _), ih.2.append (.refl [d])⟩

end Interleaving

/-- **The messages a side has taken after its documents**: none while it is open, its
`end_of_stream` once it is closed. -/
def closedTail (isOpen : Bool) : List Msg := if isOpen then [] else [.error .endOfStream]

@[simp] theorem closedTail_true : closedTail true = [] := rfl
@[simp] theorem closedTail_false : closedTail false = [.error .endOfStream] := rfl

/-- **Where a union reading streams `a` and `b` can be**, given the messages it has taken of
each, and what it has sent. In its loop, it has forwarded an interleaving of the documents
taken, a closed side's `end_of_stream` taken too. It has returned after ending its output with
`end_of_stream`, both sides closed; or after an input's other error, which ends its output. -/
inductive UnionRun (a b : Nat) : List Msg → List Msg → Actor → List Msg → Prop
  | merging {da db out : List ScanReturned} {aOpen bOpen : Bool} : Interleaving da db out →
      (aOpen || bOpen) = true →
      UnionRun a b (da.map .doc ++ closedTail aOpen) (db.map .doc ++ closedTail bOpen)
        (.union ⟨a, b, aOpen, bOpen⟩) (out.map .doc)
  | ended {da db out : List ScanReturned} : Interleaving da db out →
      UnionRun a b (da.map .doc ++ [.error .endOfStream]) (db.map .doc ++ [.error .endOfStream])
        .finished (out.map .doc ++ [.error .endOfStream])
  | failedA {da db out : List ScanReturned} {e : ErrorCode} {bOpen : Bool} : Interleaving da db out →
      e ≠ .endOfStream →
      UnionRun a b (da.map .doc ++ [.error e]) (db.map .doc ++ closedTail bOpen) .finished
        (out.map .doc ++ [.error e])
  | failedB {da db out : List ScanReturned} {e : ErrorCode} {aOpen : Bool} : Interleaving da db out →
      e ≠ .endOfStream →
      UnionRun a b (da.map .doc ++ closedTail aOpen) (db.map .doc ++ [.error e]) .finished
        (out.map .doc ++ [.error e])

/-- **A union that has returned has ended its output.** -/
theorem UnionRun.finished_ends {a b : Nat} {Ma Mb out : List Msg} (h : UnionRun a b Ma Mb .finished out) :
    ∃ e, out.getLast? = some (.error e) := by
  cases h <;> exact ⟨_, List.getLast?_concat _⟩

/-! ## Inputs arriving one at a time -/

/-- **The side of a union a message arrives on.** -/
inductive Side
  | a
  | b
  deriving DecidableEq, Repr

/-- **The messages that arrived on side `s`**, in order. -/
def arrivedOn (s : Side) (arr : List (Side × Msg)) : List Msg :=
  (arr.filter fun p => p.1 = s).map Prod.snd

@[simp] theorem arrivedOn_nil (s : Side) : arrivedOn s [] = [] := rfl

theorem arrivedOn_append (s : Side) (l r : List (Side × Msg)) :
    arrivedOn s (l ++ r) = arrivedOn s l ++ arrivedOn s r := by
  simp [arrivedOn, List.filter_append]

/-- **The union `UnionPlan::execute` starts**, operation `2`, reading the outputs of its two
inputs, operations `0` and `1`, on which nothing has been sent yet. The inputs' producers are
left open: what they send arrives through `Exec.arrive`. -/
def unionStart (cp : PlanCheckpoint) : Exec :=
  ⟨{ cp with ops := [⟨.finished, .empty⟩, ⟨.finished, .empty⟩, ⟨.union ⟨0, 1, true, true⟩, .empty⟩] }, [], 0⟩

/-- **A message arrives on side `s`**: its producer sends it and, as Flow runs an actor waiting
on a stream as soon as a message is sent on it, `doUnion` handles it when it waits on that
side. -/
def Exec.arrive (env : Env) (x : Exec) : Side × Msg → Exec
  | (.a, m) => ((x.send 0 m).step env 2 .input).getD (x.send 0 m)
  | (.b, m) => ((x.send 1 m).step env 2 .inputB).getD (x.send 1 m)

/-- **The messages `arr` arrive**, in that order. -/
def Exec.arriveAll (env : Env) (x : Exec) (arr : List (Side × Msg)) : Exec :=
  arr.foldl (Exec.arrive env) x

/-- **The union in Flow's order**, its inputs having sent `la` and `lb`: where `UnionRun` says,
having taken every message of a side it waits on. -/
def EagerUnion (la lb : List Msg) (x : Exec) : Prop :=
  ∃ ta tb a out t, x.cp.ops = [⟨.finished, ⟨la, ta⟩⟩, ⟨.finished, ⟨lb, tb⟩⟩, ⟨a, ⟨out, t⟩⟩] ∧
    ta ≤ la.length ∧ tb ≤ lb.length ∧ UnionRun 0 1 (la.take ta) (lb.take tb) a out ∧
    ∀ st, a = .union st → (st.aOpen → ta = la.length) ∧ (st.bOpen → tb = lb.length)

section Eager

variable {env : Env} {la lb : List Msg} {x : Exec}

theorem eagerUnion_start (cp : PlanCheckpoint) : EagerUnion [] [] (unionStart cp) :=
  ⟨0, 0, _, [], 0, rfl, le_rfl, le_rfl, by simpa using @UnionRun.merging 0 1 [] [] [] true true .nil rfl,
    fun st hst => by cases hst; simp⟩

/-- **A message arriving on side `a`** keeps the union in Flow's order: forwarded, closing the
side (and ending the output when `b` is closed too), or ending the output with the error; or,
the union not waiting on `a`, left in the stream. -/
theorem EagerUnion.arriveA (h : EagerUnion la lb x) (m : Msg) :
    EagerUnion (la ++ [m]) lb (x.arrive env (.a, m)) := by
  obtain ⟨ta, tb, a, out, t, hops, hta, htb, hrun, hquiet⟩ := h
  have hops' : (x.send 0 m).cp.ops =
      [⟨.finished, ⟨la ++ [m], ta⟩⟩, ⟨.finished, ⟨lb, tb⟩⟩, ⟨a, ⟨out, t⟩⟩] := by
    simp [Exec.send, hops, Stream.send]
  -- the union does not wait on side `a`: the message stays in its stream
  have stay : (x.send 0 m).step env 2 .input = none → (∀ st, a = .union st → st.aOpen = false) →
      EagerUnion (la ++ [m]) lb (x.arrive env (.a, m)) := fun hn hclosed => by
    simp only [Exec.arrive, hn, Option.getD_none]
    refine ⟨ta, tb, a, out, t, hops', by simp; omega, htb, by rwa [List.take_append_of_le_length hta],
      fun st hst => ⟨fun ho => absurd ho (by simp [hclosed st hst]), (hquiet st hst).2⟩⟩
  generalize hMa : la.take ta = Ma at hrun
  generalize hMb : lb.take tb = Mb at hrun
  cases hrun with
  | @merging da db outd aOpen bOpen hI hab =>
    cases aOpen
    · exact stay (by simp [Exec.step, Exec.op?, hops', doUnion]) fun st hst => by cases hst; rfl
    have hta' : ta = la.length := (hquiet _ rfl).1 rfl
    have hla : la = da.map .doc := by
      rw [← List.take_length la, ← hta', hMa, closedTail_true, List.append_nil]
    have hpa : (x.send 0 m).peek 0 = some m := by
      simp [Exec.peek, Exec.op?, hops', Stream.peek, hta']
    have htake : (la ++ [m]).take (ta + 1) = da.map .doc ++ [m] := by
      rw [List.take_of_length_le (by simp [hta']), hla]
    rcases m with d | e
    · -- a document: forwarded
      have harr : x.arrive env (.a, .doc d) = ((x.send 0 (.doc d)).popInput 0).send 2 (.doc d) := by
        simp [Exec.arrive, Exec.step, Exec.op?, hops', doUnion, hpa]
      refine ⟨ta + 1, tb, .union ⟨0, 1, true, bOpen⟩, (outd ++ [d]).map .doc, t, by
        simp [harr, Exec.send, Exec.popInput, hops, Stream.pop, Stream.send], by simp; omega, htb, ?_,
        fun st hst => by cases hst; exact ⟨fun _ => by simp [hta'], (hquiet _ rfl).2⟩⟩
      rw [htake, hMb]
      simpa using @UnionRun.merging 0 1 (da ++ [d]) db (outd ++ [d]) true bOpen (hI.left d) hab
    by_cases he : e = .endOfStream
    · subst he
      cases bOpen
      · -- side `b` is closed: the output ends
        have harr : x.arrive env (.a, .error .endOfStream) =
            ((x.send 0 (.error .endOfStream)).popInput 0).finish 2 .endOfStream := by
          simp [Exec.arrive, Exec.step, Exec.op?, hops', doUnion, hpa, unionEndOfStream]
        refine ⟨ta + 1, tb, .finished, outd.map .doc ++ [.error .endOfStream], t, by
          simp [harr, Exec.send, Exec.popInput, Exec.setActor, hops, Stream.pop, Stream.send],
          by simp; omega, htb, ?_, fun st hst => by cases hst⟩
        rw [htake, hMb]
        simpa using @UnionRun.ended 0 1 da db outd hI
      · -- side `b` waits with nothing sent: side `a` closes
        have hpb : ((x.send 0 (.error .endOfStream)).popInput 0).peek 1 = none := by
          simp [Exec.peek, Exec.op?, Exec.popInput, hops', Stream.peek, (hquiet _ rfl).2 rfl]
        have harr : x.arrive env (.a, .error .endOfStream) =
            ((x.send 0 (.error .endOfStream)).popInput 0).setActor 2 (.union ⟨0, 1, false, true⟩) := by
          simp [Exec.arrive, Exec.step, Exec.op?, hops', doUnion, hpa, unionEndOfStream, hpb]
        refine ⟨ta + 1, tb, .union ⟨0, 1, false, true⟩, outd.map .doc, t, by
          simp [harr, Exec.send, Exec.popInput, Exec.setActor, hops, Stream.pop, Stream.send], by simp; omega, htb, ?_,
          fun st hst => by cases hst; exact ⟨by simp, (hquiet _ rfl).2⟩⟩
        rw [htake, hMb]
        simpa using @UnionRun.merging 0 1 da db outd false true hI rfl
    · -- another error: the output ends with it
      have harr : x.arrive env (.a, .error e) = ((x.send 0 (.error e)).popInput 0).finish 2 e := by
        simp [Exec.arrive, Exec.step, Exec.op?, hops', doUnion, hpa, he]
      refine ⟨ta + 1, tb, .finished, outd.map .doc ++ [.error e], t, by
        simp [harr, Exec.send, Exec.popInput, Exec.setActor, hops, Stream.pop, Stream.send],
        by simp; omega, htb, ?_, fun st hst => by cases hst⟩
      rw [htake, hMb]
      simpa using @UnionRun.failedA 0 1 da db outd e bOpen hI he
  | ended | failedA | failedB =>
    exact stay (by simp [Exec.step, Exec.op?, hops']) fun st hst => by cases hst

/-- **A message arriving on side `b`** keeps the union in Flow's order. -/
theorem EagerUnion.arriveB (h : EagerUnion la lb x) (m : Msg) :
    EagerUnion la (lb ++ [m]) (x.arrive env (.b, m)) := by
  obtain ⟨ta, tb, a, out, t, hops, hta, htb, hrun, hquiet⟩ := h
  have hops' : (x.send 1 m).cp.ops =
      [⟨.finished, ⟨la, ta⟩⟩, ⟨.finished, ⟨lb ++ [m], tb⟩⟩, ⟨a, ⟨out, t⟩⟩] := by
    simp [Exec.send, hops, Stream.send]
  -- the union does not wait on side `b`: the message stays in its stream
  have stay : (x.send 1 m).step env 2 .inputB = none → (∀ st, a = .union st → st.bOpen = false) →
      EagerUnion la (lb ++ [m]) (x.arrive env (.b, m)) := fun hn hclosed => by
    simp only [Exec.arrive, hn, Option.getD_none]
    refine ⟨ta, tb, a, out, t, hops', hta, by simp; omega, by rwa [List.take_append_of_le_length htb],
      fun st hst => ⟨(hquiet st hst).1, fun ho => absurd ho (by simp [hclosed st hst])⟩⟩
  generalize hMa : la.take ta = Ma at hrun
  generalize hMb : lb.take tb = Mb at hrun
  cases hrun with
  | @merging da db outd aOpen bOpen hI hab =>
    cases bOpen
    · exact stay (by simp [Exec.step, Exec.op?, hops', doUnion]) fun st hst => by cases hst; rfl
    have htb' : tb = lb.length := (hquiet _ rfl).2 rfl
    have hlb : lb = db.map .doc := by
      rw [← List.take_length lb, ← htb', hMb, closedTail_true, List.append_nil]
    have hpb : (x.send 1 m).peek 1 = some m := by
      simp [Exec.peek, Exec.op?, hops', Stream.peek, htb']
    have htake : (lb ++ [m]).take (tb + 1) = db.map .doc ++ [m] := by
      rw [List.take_of_length_le (by simp [htb']), hlb]
    rcases m with d | e
    · -- a document: forwarded
      have harr : x.arrive env (.b, .doc d) = ((x.send 1 (.doc d)).popInput 1).send 2 (.doc d) := by
        simp [Exec.arrive, Exec.step, Exec.op?, hops', doUnion, hpb]
      refine ⟨ta, tb + 1, .union ⟨0, 1, aOpen, true⟩, (outd ++ [d]).map .doc, t, by
        simp [harr, Exec.send, Exec.popInput, hops, Stream.pop, Stream.send], hta, by simp; omega, ?_,
        fun st hst => by cases hst; exact ⟨(hquiet _ rfl).1, fun _ => by simp [htb']⟩⟩
      rw [htake, hMa]
      simpa using @UnionRun.merging 0 1 da (db ++ [d]) (outd ++ [d]) aOpen true (hI.right d) hab
    by_cases he : e = .endOfStream
    · subst he
      cases aOpen
      · -- side `a` is closed: the output ends
        have harr : x.arrive env (.b, .error .endOfStream) =
            ((x.send 1 (.error .endOfStream)).popInput 1).finish 2 .endOfStream := by
          simp [Exec.arrive, Exec.step, Exec.op?, hops', doUnion, hpb, unionEndOfStream]
        refine ⟨ta, tb + 1, .finished, outd.map .doc ++ [.error .endOfStream], t, by
          simp [harr, Exec.send, Exec.popInput, Exec.setActor, hops, Stream.pop, Stream.send],
          hta, by simp; omega, ?_, fun st hst => by cases hst⟩
        rw [htake, hMa]
        simpa using @UnionRun.ended 0 1 da db outd hI
      · -- side `a` waits with nothing sent: side `b` closes
        have hpa : ((x.send 1 (.error .endOfStream)).popInput 1).peek 0 = none := by
          simp [Exec.peek, Exec.op?, Exec.popInput, hops', Stream.peek, (hquiet _ rfl).1 rfl]
        have harr : x.arrive env (.b, .error .endOfStream) =
            ((x.send 1 (.error .endOfStream)).popInput 1).setActor 2 (.union ⟨0, 1, true, false⟩) := by
          simp [Exec.arrive, Exec.step, Exec.op?, hops', doUnion, hpb, unionEndOfStream, hpa]
        refine ⟨ta, tb + 1, .union ⟨0, 1, true, false⟩, outd.map .doc, t, by
          simp [harr, Exec.send, Exec.popInput, Exec.setActor, hops, Stream.pop, Stream.send], hta, by simp; omega, ?_,
          fun st hst => by cases hst; exact ⟨(hquiet _ rfl).1, by simp⟩⟩
        rw [htake, hMa]
        simpa using @UnionRun.merging 0 1 da db outd true false hI rfl
    · -- another error: the output ends with it
      have harr : x.arrive env (.b, .error e) = ((x.send 1 (.error e)).popInput 1).finish 2 e := by
        simp [Exec.arrive, Exec.step, Exec.op?, hops', doUnion, hpb, he]
      refine ⟨ta, tb + 1, .finished, outd.map .doc ++ [.error e], t, by
        simp [harr, Exec.send, Exec.popInput, Exec.setActor, hops, Stream.pop, Stream.send],
        hta, by simp; omega, ?_, fun st hst => by cases hst⟩
      rw [htake, hMa]
      simpa using @UnionRun.failedB 0 1 da db outd e aOpen hI he
  | ended | failedA | failedB =>
    exact stay (by simp [Exec.step, Exec.op?, hops']) fun st hst => by cases hst

/-- **Every arrival keeps the union in Flow's order.** -/
theorem EagerUnion.arrive (h : EagerUnion la lb x) (p : Side × Msg) :
    EagerUnion (la ++ arrivedOn .a [p]) (lb ++ arrivedOn .b [p]) (x.arrive env p) := by
  rcases p with ⟨_ | _, m⟩
  · simpa [arrivedOn] using h.arriveA m
  · simpa [arrivedOn] using h.arriveB m

/-- **Every sequence of arrivals keeps the union in Flow's order.** -/
theorem EagerUnion.arriveAll : ∀ (arr : List (Side × Msg)) {la lb : List Msg} {x : Exec},
    EagerUnion la lb x →
      EagerUnion (la ++ arrivedOn .a arr) (lb ++ arrivedOn .b arr) (x.arriveAll env arr)
  | [], _, _, _, h => by simpa [Exec.arriveAll] using h
  | p :: arr, la, lb, x, h => by
    rw [show p :: arr = [p] ++ arr from rfl, arrivedOn_append, arrivedOn_append, ← List.append_assoc,
      ← List.append_assoc]
    exact EagerUnion.arriveAll arr (h.arrive p)

end Eager

/-! ## What a union owes its inputs -/

/-- **What a union owes its inputs** `la` and `lb`: an interleaving of documents that each
input sent first, in their order; then, if its output has ended, `end_of_stream` where both
inputs sent it, right after the documents forwarded, or another error one of the inputs sent
right after the documents forwarded from it. -/
inductive UnionOutput (la lb : List Msg) : List Msg → Prop
  | merging {da db out : List ScanReturned} : Interleaving da db out → da.map .doc <+: la →
      db.map .doc <+: lb → UnionOutput la lb (out.map .doc)
  | ended {da db out : List ScanReturned} : Interleaving da db out →
      da.map .doc ++ [.error .endOfStream] <+: la → db.map .doc ++ [.error .endOfStream] <+: lb →
      UnionOutput la lb (out.map .doc ++ [.error .endOfStream])
  | failed {da db out : List ScanReturned} {e : ErrorCode} : Interleaving da db out → e ≠ .endOfStream →
      (da.map .doc ++ [.error e] <+: la ∧ db.map .doc <+: lb ∨
        da.map .doc <+: la ∧ db.map .doc ++ [.error e] <+: lb) →
      UnionOutput la lb (out.map .doc ++ [.error e])

/-- **A union owes its inputs what it has sent**, in every state it can be in. -/
theorem UnionRun.unionOutput {a b : Nat} {la lb : List Msg} {ta tb : Nat} {act : Actor} {out : List Msg}
    (h : UnionRun a b (la.take ta) (lb.take tb) act out) : UnionOutput la lb out := by
  have pa : ∀ {l}, la.take ta = l → l <+: la := fun h => h ▸ List.take_prefix ta la
  have pb : ∀ {l}, lb.take tb = l → l <+: lb := fun h => h ▸ List.take_prefix tb lb
  generalize hMa : la.take ta = Ma at h
  generalize hMb : lb.take tb = Mb at h
  cases h with
  | merging hI => exact .merging hI ((List.prefix_append _ _).trans (pa hMa)) ((List.prefix_append _ _).trans (pb hMb))
  | ended hI => exact .ended hI (pa hMa) (pb hMb)
  | failedA hI he => exact .failed hI he (.inl ⟨pa hMa, (List.prefix_append _ _).trans (pb hMb)⟩)
  | failedB hI he => exact .failed hI he (.inr ⟨(List.prefix_append _ _).trans (pa hMa), pb hMb⟩)

/-- **The first error an input sent**, if it sent one: the end of its stream. -/
def firstError : List Msg → Option ErrorCode
  | [] => none
  | .doc _ :: rest => firstError rest
  | .error e :: _ => some e

@[simp] theorem firstError_map_doc_append (ds : List ScanReturned) (l : List Msg) :
    firstError (ds.map .doc ++ l) = firstError l := by
  induction ds with
  | nil => rfl
  | cons d ds ih => exact ih

@[simp] theorem firstError_map_doc (ds : List ScanReturned) : firstError (ds.map .doc) = none := by
  simpa using firstError_map_doc_append ds []

theorem firstError_of_isPrefix {ds : List ScanReturned} {e : ErrorCode} {l : List Msg}
    (h : ds.map .doc ++ [.error e] <+: l) : firstError l = some e := by
  obtain ⟨r, rfl⟩ := h
  simp [firstError]

/-- **The error that ends a union's output**: `end_of_stream` only when both inputs ended with
it, and any other error only when an input ended with it. -/
theorem UnionOutput.last_error {la lb out : List Msg} (h : UnionOutput la lb out) {e : ErrorCode}
    (hl : out.getLast? = some (.error e)) :
    (e = .endOfStream → firstError la = some .endOfStream ∧ firstError lb = some .endOfStream) ∧
      (e ≠ .endOfStream → firstError la = some e ∨ firstError lb = some e) := by
  cases h with
  | merging => simp [List.getLast?_map] at hl
  | ended _ ha hb =>
    rw [List.getLast?_concat, Option.some.injEq, Msg.error.injEq] at hl
    exact ⟨fun _ => ⟨firstError_of_isPrefix ha, firstError_of_isPrefix hb⟩, fun he => absurd hl.symm he⟩
  | failed _ he hin =>
    rw [List.getLast?_concat, Option.some.injEq, Msg.error.injEq] at hl
    subst hl
    refine ⟨fun h => absurd h he, fun _ => ?_⟩
    rcases hin with ⟨ha, -⟩ | ⟨-, hb⟩
    exacts [.inl (firstError_of_isPrefix ha), .inr (firstError_of_isPrefix hb)]

/-- **Once an error has arrived on both sides, the union has ended its output**: a side it
still waits on has sent documents only. -/
theorem EagerUnion.ended {la lb : List Msg} {x : Exec} (h : EagerUnion la lb x)
    (ha : (firstError la).isSome) (hb : (firstError lb).isSome) :
    ∃ out e, x.sentAt 2 = some out ∧ out.getLast? = some (.error e) := by
  obtain ⟨ta, tb, a, out, t, hops, -, -, hrun, hquiet⟩ := h
  have hsent : x.sentAt 2 = some out := by simp [Exec.sentAt, Exec.op?, hops]
  generalize hMa : la.take ta = Ma at hrun
  generalize hMb : lb.take tb = Mb at hrun
  cases hrun with
  | @merging da db outd aOpen bOpen hI hab =>
    cases aOpen
    · cases bOpen
      · simp at hab
      · have hlb : lb = db.map .doc := by
          rw [← List.take_length lb, ← (hquiet _ rfl).2 rfl, hMb, closedTail_true, List.append_nil]
        simp [hlb] at hb
    · have hla : la = da.map .doc := by
        rw [← List.take_length la, ← (hquiet _ rfl).1 rfl, hMa, closedTail_true, List.append_nil]
      simp [hla] at ha
  | ended | failedA | failedB => exact ⟨_, _, hsent, List.getLast?_concat _⟩

/-- **`doUnion` merges its inputs.** Whatever order its inputs' messages arrive in, each
handled as it arrives: the union sends what `UnionOutput` says — an interleaving of the
documents its inputs sent before their ends, each input's in its order, each once — and it
never returns without ending its output (the `ASSERT` holds). Once both inputs have ended, so
has the output: with `end_of_stream` exactly when both inputs ended with `end_of_stream`, and
otherwise with an error one of the inputs ended with. -/
theorem union_merges_inputs (env : Env) (cp : PlanCheckpoint) (arr : List (Side × Msg)) :
    ∃ out, ((unionStart cp).arriveAll env arr).sentAt 2 = some out ∧
      UnionOutput (arrivedOn .a arr) (arrivedOn .b arr) out ∧
      (((unionStart cp).arriveAll env arr).actorAt 2 = some .finished →
        ∃ e, out.getLast? = some (.error e)) ∧
      ((firstError (arrivedOn .a arr)).isSome → (firstError (arrivedOn .b arr)).isSome →
        ∃ e, out.getLast? = some (.error e)) ∧
      ∀ e, out.getLast? = some (.error e) →
        (e = .endOfStream ↔ firstError (arrivedOn .a arr) = some .endOfStream ∧
          firstError (arrivedOn .b arr) = some .endOfStream) ∧
        (e ≠ .endOfStream → firstError (arrivedOn .a arr) = some e ∨
          firstError (arrivedOn .b arr) = some e) := by
  have h : EagerUnion (arrivedOn .a arr) (arrivedOn .b arr) ((unionStart cp).arriveAll env arr) := by
    simpa using EagerUnion.arriveAll arr (eagerUnion_start cp)
  have hended := h.ended
  obtain ⟨ta, tb, a, out, t, hops, -, -, hrun, -⟩ := h
  have hsent : ((unionStart cp).arriveAll env arr).sentAt 2 = some out := by
    simp [Exec.sentAt, Exec.op?, hops]
  have hout := hrun.unionOutput
  refine ⟨out, hsent, hout, fun hfin => ?_, fun ha hb => ?_, fun e hl => ?_⟩
  · obtain rfl : a = .finished := by simpa [Exec.actorAt, Exec.op?, hops] using hfin
    exact hrun.finished_ends
  · obtain ⟨out', e, hs, hl⟩ := hended ha hb
    rw [hsent, Option.some.injEq] at hs
    exact ⟨e, hs ▸ hl⟩
  · obtain ⟨hend, herr⟩ := hout.last_error hl
    refine ⟨⟨hend, fun ⟨ha, _⟩ => ?_⟩, herr⟩
    by_contra he
    rcases herr he with h' | h' <;> simp_all

/-- **One side ends, then the other fails**: a document on each side, then `end_of_stream` on
side `a` and a retryable error on side `b`. -/
def endThenFailure : List (Side × Msg) :=
  [(.a, .doc ⟨.stored [1], 0, [1]⟩), (.b, .doc ⟨.stored [2], 0, [2]⟩), (.a, .error .endOfStream),
    (.b, .error .retryable)]

/-- **The union forwards both documents and ends its output with the failure.** -/
theorem union_end_then_failure_ends_with_failure :
    ((unionStart (PlanCheckpoint.new 10)).arriveAll emptyEnv endThenFailure).sentAt 2 =
        some [.doc ⟨.stored [1], 0, [1]⟩, .doc ⟨.stored [2], 0, [2]⟩, .error .retryable] ∧
      ∃ out, ((unionStart (PlanCheckpoint.new 10)).arriveAll emptyEnv endThenFailure).sentAt 2 = some out ∧
        ∃ e, out.getLast? = some (.error e) ∧ e ≠ .endOfStream := by
  obtain ⟨out, hout, -, -, hend, hlast⟩ := union_merges_inputs emptyEnv (PlanCheckpoint.new 10) endThenFailure
  obtain ⟨e, he⟩ := hend rfl rfl
  exact ⟨by decide, out, hout, e, he, fun h => absurd ((hlast e he).1.1 h).2 (by decide)⟩

end DocLayer
