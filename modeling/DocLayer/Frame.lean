import DocLayer.Run

/-! # What one move can change

Every invariant of an execution is about the operations' actors, what they have sent and what
their consumers have taken. A step of operation `i` changes only operation `i`'s actor and
output; it may pop messages from any stream (its inputs), but a stream's `taken` only grows
and a stream's history only grows at its end; the scan slots never change while the plan
runs. This module proves that once, for every actor, so the invariants of later modules look
at the mover alone.

* **`Exec.Frame i x y`** — the relation between the states before and after a move of
  operation `i`, with one lemma per primitive move (`Frame.setActor`, `Frame.send`, ...).
* **`step_frame`** — every step of operation `i` is a frame move of `i`.
* **`consume_frame`** — the final consumer's move is a frame move of every operation. -/

namespace DocLayer

/-- **A move of operation `i` from `x` to `y`**: other operations' actors and outputs are
unchanged, every output only grows at its end, every `taken` only grows, and the scan slots
are the same. -/
structure Exec.Frame (i : Nat) (x y : Exec) : Prop where
  actorAt : ∀ k, k ≠ i → y.actorAt k = x.actorAt k
  sentAt : ∀ k, k ≠ i → y.sentAt k = x.sentAt k
  sent_grows : ∀ k l, x.sentAt k = some l → ∃ l', y.sentAt k = some l' ∧ l <+: l'
  taken_le : ∀ k t, x.takenAt k = some t → ∃ t', y.takenAt k = some t' ∧ t ≤ t'
  scans : y.cp.scans = x.cp.scans

namespace Exec.Frame

variable {i : Nat} {x y : Exec}

theorem refl (i : Nat) (x : Exec) : Frame i x x :=
  ⟨fun _ _ => rfl, fun _ _ => rfl, fun _ l h => ⟨l, h, List.prefix_refl l⟩,
    fun _ t h => ⟨t, h, le_rfl⟩, rfl⟩

/-- A move that leaves every operation as it is. -/
theorem of_ops_eq (h : Frame i x y) {z : Exec} (hz : z.cp.ops = y.cp.ops)
    (hs : z.cp.scans = y.cp.scans) : Frame i x z := by
  have hop : ∀ k, z.op? k = y.op? k := fun k => by simp only [Exec.op?, hz]
  exact ⟨fun k hk => by simpa only [Exec.actorAt, hop] using h.actorAt k hk,
    fun k hk => by simpa only [Exec.sentAt, hop] using h.sentAt k hk,
    fun k l hl => by simpa only [Exec.sentAt, hop] using h.sent_grows k l hl,
    fun k t ht => by simpa only [Exec.takenAt, hop] using h.taken_le k t ht, hs.trans h.scans⟩

theorem setActor (h : Frame i x y) (a : Actor) : Frame i x (y.setActor i a) := by
  refine ⟨fun k hk => ?_, fun k hk => ?_, fun k l hl => ?_, fun k t ht => ?_, h.scans⟩
  · simpa [hk] using h.actorAt k hk
  · simpa using h.sentAt k hk
  · simpa using h.sent_grows k l hl
  · simpa using h.taken_le k t ht

theorem send (h : Frame i x y) (m : Msg) : Frame i x (y.send i m) := by
  refine ⟨fun k hk => ?_, fun k hk => ?_, fun k l hl => ?_, fun k t ht => ?_, h.scans⟩
  · simpa using h.actorAt k hk
  · simpa [hk] using h.sentAt k hk
  · obtain ⟨l', hl', hp⟩ := h.sent_grows k l hl
    by_cases hk : k = i
    · subst hk; exact ⟨l' ++ [m], by simp [hl'], hp.trans (List.prefix_append l' [m])⟩
    · exact ⟨l', by simp [hk, hl'], hp⟩
  · simpa using h.taken_le k t ht

theorem popInput (h : Frame i x y) (j : Nat) : Frame i x (y.popInput j) := by
  refine ⟨fun k hk => ?_, fun k hk => ?_, fun k l hl => ?_, fun k t ht => ?_, h.scans⟩
  · simpa using h.actorAt k hk
  · simpa using h.sentAt k hk
  · simpa using h.sent_grows k l hl
  · obtain ⟨t', ht', hle⟩ := h.taken_le k t ht
    by_cases hk : k = j
    · subst hk; exact ⟨t' + 1, by simp [ht'], by omega⟩
    · exact ⟨t', by simp [hk, ht'], hle⟩

theorem takePermit (h : Frame i x y) : Frame i x y.takePermit := h.of_ops_eq rfl rfl
theorem releasePermit (h : Frame i x y) : Frame i x y.releasePermit := h.of_ops_eq rfl rfl
theorem write (h : Frame i x y) (e : Effect) : Frame i x (y.write e) := h.of_ops_eq rfl rfl
theorem insertDoc (h : Frame i x y) : Frame i x y.insertDoc := h.of_ops_eq rfl rfl
theorem setCounter (h : Frame i x y) (slot : Nat) (v : Int) : Frame i x (y.setCounter slot v) :=
  h.of_ops_eq rfl rfl

theorem finish (h : Frame i x y) (e : ErrorCode) : Frame i x (y.finish i e) := (h.send _).setActor _

theorem onReceive (h : Frame i x y) (kind : QueueKind) (d : ScanReturned) :
    Frame i x (kind.onReceive d y) := by
  cases kind <;> first | exact h | exact h.write _

end Exec.Frame

open Exec.Frame

/-! ## The actors' shared tails -/

theorem updateAfterDrain_frame {i : Nat} {x y : Exec} (h : Exec.Frame i x y) (st : Update) :
    Exec.Frame i x (updateAfterDrain y i st) := by
  unfold updateAfterDrain
  split
  · exact h.setActor _
  · exact h.finish _

theorem unionEndOfStream_frame {i : Nat} {x y : Exec} (h : Exec.Frame i x y) (b : Nat)
    (bOpen : Bool) (reopen : Bool → Bool → Union) :
    Exec.Frame i x (unionEndOfStream y i b bOpen reopen) := by
  unfold unionEndOfStream
  split
  · split
    · exact (h.popInput _).finish _
    · exact h.setActor _
  · exact h.setActor _
  · exact h.finish _

theorem pauOutput_frame {i : Nat} {x y : Exec} (h : Exec.Frame i x y) (st : ProjectAndUpdate) :
    Exec.Frame i x (pauOutput y i st) := by
  unfold pauOutput
  split
  · exact (h.send _).finish _
  · exact h.finish _

theorem pauProjectNew_frame {i : Nat} {x y : Exec} (h : Exec.Frame i x y) (st : ProjectAndUpdate) :
    Exec.Frame i x (pauProjectNew y i st) := by
  unfold pauProjectNew
  split
  · exact h.setActor _
  · exact pauOutput_frame h st

theorem pauCommit_frame {i : Nat} {x y : Exec} (h : Exec.Frame i x y) (st : ProjectAndUpdate) :
    Exec.Frame i x (pauCommit y i st) := by
  unfold pauCommit
  split
  · exact (h.write _).setActor _
  · exact pauProjectNew_frame h st

theorem pauMutate_frame {i : Nat} {x y : Exec} (h : Exec.Frame i x y) (st : ProjectAndUpdate) :
    Exec.Frame i x (pauMutate y i st) := by
  unfold pauMutate
  split
  · exact (h.write _).setActor _
  · split
    · exact h.setActor _
    · exact pauCommit_frame h st

theorem pauProjectOld_frame {i : Nat} {x y : Exec} (h : Exec.Frame i x y) (st : ProjectAndUpdate) :
    Exec.Frame i x (pauProjectOld y i st) := by
  unfold pauProjectOld
  split
  · exact h.setActor _
  · exact pauMutate_frame h st

theorem insertLoop_frame {i : Nat} {x y : Exec} (h : Exec.Frame i x y) (st : InsertDocs) :
    Exec.Frame i x (insertLoop y i st) := by
  unfold insertLoop
  split
  · exact h.finish _
  · exact h.setActor _

/-! ## Steps and consumption -/

variable {env : Env}

/-- **Every step of operation `i` is a frame move of `i`.** Each actor's result is a
composition of the primitive moves, closed by the lemmas above. -/
theorem step_frame {x y : Exec} {i : Nat} {ev : Event} (h : x.step env i ev = some y) :
    Exec.Frame i x y := by
  simp only [Exec.step, headQueueActor_eq] at h
  split at h
  · cases h
  split at h <;> try cases h
  all_goals
    simp only [doPKScan, toDocInfo, doSinglePKLookup, headQueueStep, scanAndBuildIndex, doUpdate,
      doUnion, doSkip, projectAndUpdate, doIndexInsert, doInsert] at h
    repeat' split at h
  all_goals cases h <;> apply_rules [Exec.Frame.refl, Exec.Frame.setActor, Exec.Frame.send,
    Exec.Frame.popInput, Exec.Frame.takePermit, Exec.Frame.releasePermit, Exec.Frame.write,
    Exec.Frame.insertDoc, Exec.Frame.setCounter, Exec.Frame.finish, Exec.Frame.onReceive,
    updateAfterDrain_frame, unionEndOfStream_frame, pauOutput_frame, pauProjectNew_frame,
    pauCommit_frame, pauMutate_frame, pauProjectOld_frame, insertLoop_frame]

/-- **The final consumer moves no actor and no output**: a frame move of every operation. -/
theorem consume_frame {x y : Exec} {root : Nat} (h : x.consume root = some y) (i : Nat) :
    Exec.Frame i x y := by
  unfold Exec.consume at h
  split at h <;> cases h
  · exact ((Exec.Frame.refl i x).popInput root).releasePermit
  · exact (Exec.Frame.refl i x).popInput root

end DocLayer
