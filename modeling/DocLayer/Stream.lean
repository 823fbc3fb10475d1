import DocLayer.Key

/-! # Document handles and the streams between plan actors

Plan actors pass `Reference<ScanReturnedContext>` handles through `PromiseStream`s. The model
keeps of a handle what the executor reads: which document it points at, the id of the scan
that produced it and its scan key. A stream is modelled by its whole history:

* **`ScanReturned`** — the handle: `doc`, `scanId` (`-1` for inserted documents) and `scanKey`.
* **`Msg`** — one item on a stream: a handle, or the error that ends the stream (Flow ends a
  `PromiseStream` by `sendError`, `end_of_stream` included).
* **`Stream`** — every message sent so far and how many the consumer has taken; the unread
  buffer is `sent.drop taken`. Keeping the history lets invariants speak of "every document
  that appeared on this stream", not only of what is buffered now. -/

namespace DocLayer

/-- **What a document handle points at.** A stored document is named by its encoded primary
key; `inserted n` is the `n`-th document written by an insert, an upsert or an index
insert. -/
inductive DocRef
  | stored (pk : Key)
  | inserted (n : Nat)
  deriving DecidableEq, Repr

/-- **`ScanReturnedContext`**: a document handle tagged with the scan that produced it and the
scan key it was produced at. -/
structure ScanReturned where
  /-- The document the handle reads and writes. -/
  doc : DocRef
  /-- `scanId()`: the scan's slot in the checkpoint, or `-1` for a document no scan produced. -/
  scanId : Int
  /-- `scanKey()`: the key the scan was at when it produced the document. -/
  scanKey : Key
  deriving DecidableEq, Repr

/-- **The Flow errors that travel on the executor's streams.** `retryable` stands for the
transient KV failures (`not_committed`, `transaction_too_old`, ...) that `onError` retries. -/
inductive ErrorCode
  | endOfStream
  | actorCancelled
  | operationCancelled
  | retryable
  | indexNameTaken
  | commitUnknownResult
  deriving DecidableEq, Repr

/-- **One item on a `PromiseStream`**: a document handle, or the error that ends the stream. -/
inductive Msg
  | doc (d : ScanReturned)
  | error (e : ErrorCode)
  deriving DecidableEq, Repr

/-- The handle a message carries, if it carries one. -/
def Msg.toDoc? : Msg → Option ScanReturned
  | .doc d => some d
  | .error _ => none

@[simp] theorem Msg.toDoc?_doc (d : ScanReturned) : (Msg.doc d).toDoc? = some d := rfl

@[simp] theorem Msg.toDoc?_comp_doc : Msg.toDoc? ∘ Msg.doc = some := rfl
@[simp] theorem Msg.toDoc?_error (e : ErrorCode) : (Msg.error e).toDoc? = none := rfl

/-- **Whether a message reports a failure**: an error other than `end_of_stream`. -/
def Msg.isFailure : Msg → Bool
  | .doc _ => false
  | .error e => e != .endOfStream

/-- The documents among a stream's messages, in order. -/
def docsOf (l : List Msg) : List ScanReturned := l.filterMap Msg.toDoc?

@[simp] theorem docsOf_nil : docsOf [] = [] := rfl

@[simp] theorem docsOf_append (l l' : List Msg) : docsOf (l ++ l') = docsOf l ++ docsOf l' := by
  simp [docsOf]

@[simp] theorem docsOf_cons_doc (d : ScanReturned) (l : List Msg) : docsOf (.doc d :: l) = d :: docsOf l :=
  rfl

@[simp] theorem docsOf_cons_error (e : ErrorCode) (l : List Msg) : docsOf (.error e :: l) = docsOf l :=
  rfl

@[simp] theorem docsOf_map_doc (ds : List ScanReturned) : docsOf (ds.map .doc) = ds := by
  induction ds <;> simp_all

/-- Taking the message at `t` extends the first `t` taken by it. -/
theorem take_succ_of_getElem? {l : List Msg} {t : Nat} {m : Msg} (h : l[t]? = some m) :
    l.take (t + 1) = l.take t ++ [m] := by
  rw [List.take_succ, h]
  rfl

/-- **A `PromiseStream`**: all messages sent on it so far, oldest first, and how many of them
its consumer has taken. -/
structure Stream where
  sent : List Msg
  taken : Nat
  deriving DecidableEq, Repr

namespace Stream

/-- The empty stream a `PromiseStream` starts as. -/
def empty : Stream := ⟨[], 0⟩

/-- **`send`**: append a message to the stream. -/
def send (s : Stream) (m : Msg) : Stream := { s with sent := s.sent ++ [m] }

/-- The oldest message the consumer has not taken, if any. -/
def peek (s : Stream) : Option Msg := s.sent.get? s.taken

/-- The consumer takes one message. -/
def pop (s : Stream) : Stream := { s with taken := s.taken + 1 }

/-- The documents sent on the stream, in order. -/
def docs (s : Stream) : List ScanReturned := s.sent.filterMap Msg.toDoc?

/-- Whether the stream has been ended by an error (`end_of_stream` included). -/
def ended (s : Stream) : Bool := s.sent.any fun m => m matches .error _

@[simp] theorem send_sent (s : Stream) (m : Msg) : (s.send m).sent = s.sent ++ [m] := rfl
@[simp] theorem send_taken (s : Stream) (m : Msg) : (s.send m).taken = s.taken := rfl
@[simp] theorem pop_sent (s : Stream) : s.pop.sent = s.sent := rfl
@[simp] theorem pop_taken (s : Stream) : s.pop.taken = s.taken + 1 := rfl
@[simp] theorem empty_sent : empty.sent = [] := rfl
@[simp] theorem empty_taken : empty.taken = 0 := rfl
@[simp] theorem empty_ended : empty.ended = false := rfl

@[simp] theorem docs_send_doc (s : Stream) (d : ScanReturned) :
    (s.send (.doc d)).docs = s.docs ++ [d] := by
  simp [docs, Msg.toDoc?]

@[simp] theorem docs_send_error (s : Stream) (e : ErrorCode) :
    (s.send (.error e)).docs = s.docs := by
  simp [docs, Msg.toDoc?]

@[simp] theorem docs_pop (s : Stream) : s.pop.docs = s.docs := rfl

end Stream

/-- **Two outputs that each end with an error, one a prefix of the other, are equal.** -/
theorem eq_of_docs_error_isPrefix {e e' : ErrorCode} :
    ∀ {B A : List ScanReturned}, (B.map Msg.doc ++ [Msg.error e]) <+: (A.map Msg.doc ++ [Msg.error e']) →
      B = A ∧ e = e'
  | [], [], h => by simpa using h
  | [], a :: A, h => by simp at h
  | b :: B, [], h => by simp at h
  | b :: B, a :: A, h => by
    simp only [List.map_cons, List.cons_append, List.cons_prefix_cons, Msg.doc.injEq] at h
    obtain ⟨rfl, h⟩ := h
    exact (eq_of_docs_error_isPrefix h).imp_left (congrArg _)

/-- **An output that has ended is no prefix of one that has not.** -/
theorem not_docs_error_prefix_docs {e : ErrorCode} :
    ∀ {B A : List ScanReturned}, ¬(B.map Msg.doc ++ [Msg.error e]) <+: A.map Msg.doc
  | [], [], h => by simp at h
  | [], a :: A, h => by simp at h
  | b :: B, [], h => by simp at h
  | b :: B, a :: A, h => by
    simp only [List.map_cons, List.cons_append, List.cons_prefix_cons] at h
    exact not_docs_error_prefix_docs h.2

end DocLayer
