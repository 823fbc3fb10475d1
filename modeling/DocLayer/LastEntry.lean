import DocLayer.WouldBeLast
import Mathlib.Order.MinMax

/-! # Why the would-be-last test keeps one entry per document

A document with primary key `pk` and index key parts `W` has the index entries `w ++ pk`,
`w ∈ W`. The would-be-last test compares the parts, not the entries, with the scan's upper
bound `hi`: it keeps the entry whose part is the greatest part below `hi`. That is the
document's greatest entry below `hi` as long as

* the parts are **prefix-free** (`PrefixFree`): then the scan key starts with a part only when
  the entry is that part's, and entries compare as their parts do;
* `hi` **cuts no entry** (`CutsNoEntry`): no part lies below `hi` while its entry does not.
  Both ends a scan range can have do so: `"\xff"` when the parts are not empty, and
  `strinc e` when no part is a proper prefix of `e` (`cutsNoEntry_strinc`).

* **`lastBelow_spec`** — `lastBelow` is the greatest part below the bound.
* **`wouldBeLast_iff`** — at an entry below `hi`, the test passes iff its part is the
  greatest among the entries below `hi`.
* **`filter_wouldBeLast`** — over the document's entries in `[lo, hi)`, in increasing order,
  the test keeps exactly the last one.
* **`prefix_of_lt_strinc`** — `[v, strinc v)` holds only keys that start with `v`: the point
  scan meets only the entry of the part `v`. -/

namespace DocLayer

/-! ## Keys and prefixes -/

theorem le_append (a b : Key) : a ≤ a ++ b := by
  cases b with
  | nil => simp
  | cons c b =>
    exact le_of_lt (by simpa using List.Lex.append_left (· < ·) (List.Lex.nil (a := c) (l := b)) a)

theorem cons_le_cons_iff {a : Byte} {l l' : Key} : a :: l ≤ a :: l' ↔ l ≤ l' := by
  simp only [le_iff_lt_or_eq, List.cons.injEq, true_and]
  exact or_congr List.Lex.cons_iff Iff.rfl

theorem cons_le_cons {a b : Byte} {l l' : Key} : a :: l ≤ b :: l' ↔ a < b ∨ a = b ∧ l ≤ l' := by
  rw [le_iff_lt_or_eq]
  constructor
  · rintro (h | h)
    · cases h with
      | rel h => exact .inl h
      | cons h => exact .inr ⟨rfl, le_of_lt h⟩
    · cases h
      exact .inr ⟨rfl, le_rfl⟩
  · rintro (h | ⟨rfl, h⟩)
    · exact .inl (List.Lex.rel h)
    · exact le_iff_lt_or_eq.1 (cons_le_cons_iff.2 h)

/-- A key strictly above `w` and at most `w ++ pk` starts with `w`. -/
theorem prefix_of_lt_of_le_append : ∀ {w h : Key} (pk : Key), w < h → h ≤ w ++ pk → w <+: h
  | [], _, _, _, _ => List.nil_prefix
  | a :: w, [], pk, h1, _ => absurd h1 (by simp)
  | a :: w, b :: h, pk, h1, h2 => by
    cases h1 with
    | rel hab => exact absurd h2 (not_le.2 (List.Lex.rel hab))
    | cons hwh =>
      exact (List.prefix_cons_inj a).2 (prefix_of_lt_of_le_append pk hwh (cons_le_cons_iff.1 h2))

/-- Two keys neither of which starts the other compare as all their extensions do. -/
theorem append_lt_append_of_lt : ∀ {v w : Key} (a b : Key), v < w → ¬v <+: w → v ++ a < w ++ b
  | [], _, _, _, _, h => absurd List.nil_prefix h
  | _ :: _, [], _, _, h, _ => absurd h (by simp)
  | c :: v, _ :: w, a, b, h1, h2 => by
    cases h1 with
    | rel hcd => exact List.Lex.rel hcd
    | cons hvw =>
      exact List.Lex.cons (append_lt_append_of_lt a b hvw fun h => h2 ((List.prefix_cons_inj c).2 h))

/-- **No part is a proper prefix of another.** -/
def PrefixFree (parts : List Key) : Prop := ∀ a ∈ parts, ∀ b ∈ parts, a <+: b → a = b

instance (parts : List Key) : Decidable (PrefixFree parts) :=
  inferInstanceAs (Decidable (∀ a ∈ parts, ∀ b ∈ parts, a <+: b → a = b))

/-- **`hi` cuts no entry of the document `pk`**: every part below `hi` has its entry below
`hi`. -/
def CutsNoEntry (parts : List Key) (pk hi : Key) : Prop := ∀ w ∈ parts, w < hi → w ++ pk < hi

section Parts

variable {parts : List Key} {pk : Key}

/-- Entries of prefix-free parts compare as their parts do. -/
theorem PrefixFree.append_lt_append (hpf : PrefixFree parts) {v w : Key} (hv : v ∈ parts)
    (hw : w ∈ parts) (h : v < w) : v ++ pk < w ++ pk :=
  append_lt_append_of_lt pk pk h fun hp => ne_of_lt h (hpf v hv w hw hp)

theorem PrefixFree.append_le_append_iff (hpf : PrefixFree parts) {v w : Key} (hv : v ∈ parts)
    (hw : w ∈ parts) : v ++ pk ≤ w ++ pk ↔ v ≤ w :=
  ⟨fun h => le_of_not_lt fun hwv => absurd h (not_le.2 (hpf.append_lt_append hw hv hwv)),
    fun h => (eq_or_lt_of_le h).elim (fun h => h ▸ le_rfl) fun h => le_of_lt (hpf.append_lt_append hv hw h)⟩

/-- **`"\xff"` cuts no entry** of a document whose parts are not empty. -/
theorem cutsNoEntry_allKeysEnd (hne : [] ∉ parts) : CutsNoEntry parts pk allKeysEnd := by
  intro w hw hlt
  unfold allKeysEnd at hlt ⊢
  match w, hlt with
  | [], _ => exact absurd hw hne
  | _ :: _, .rel hb => exact .rel hb
  | _ :: _, .cons h => exact absurd h (by simp)

theorem CutsNoEntry.min {hi hi' : Key} (h : CutsNoEntry parts pk hi) (h' : CutsNoEntry parts pk hi') :
    CutsNoEntry parts pk (min hi hi') := by
  intro w hw hlt
  rcases min_choice hi hi' with he | he <;> rw [he] at hlt ⊢
  exacts [h w hw hlt, h' w hw hlt]

end Parts

/-! ## `strinc` -/

/-- **What `strinc` does**: it drops the trailing `\xff` bytes and increments the last byte
left. -/
theorem strinc_eq_some {e h : Key} (hs : strinc e = some h) :
    ∃ p b n, e = p ++ b :: List.replicate n 255 ∧ b ≠ 255 ∧ h = p ++ [b + 1] := by
  unfold strinc at hs
  split at hs
  · cases hs
  rename_i b rest hd
  simp only [Option.some.injEq] at hs
  have hb : ¬b = 255 := by
    have := List.head_dropWhile_not (· = (255 : Byte)) e.reverse (by simp [hd])
    simp only [hd, List.head_cons, decide_eq_false_iff_not] at this
    exact this
  obtain ⟨n, ht⟩ : ∃ n, e.reverse.takeWhile (· = 255) = List.replicate n 255 :=
    ⟨_, List.eq_replicate_iff.2 ⟨rfl, fun x hx => by simpa using List.mem_takeWhile_imp hx⟩⟩
  refine ⟨rest.reverse, b, n, ?_, hb, by simp [← hs]⟩
  have he := List.takeWhile_append_dropWhile (· = (255 : Byte)) e.reverse
  rw [ht, hd] at he
  rw [← List.reverse_reverse e, ← he]
  simp

/-- **`strinc e` cuts no entry** of a document none of whose parts is a proper prefix of `e`. -/
theorem cutsNoEntry_strinc {parts : List Key} {pk e h : Key} (hc : ∀ w ∈ parts, w <+: e → w = e)
    (hs : strinc e = some h) : CutsNoEntry parts pk h := by
  obtain ⟨p, b, n, rfl, -, rfl⟩ := strinc_eq_some hs
  intro w hw hlt
  refine lt_of_not_le fun hge => ?_
  rcases List.prefix_concat_iff.1 (prefix_of_lt_of_le_append pk hlt hge) with heq | hwp
  · exact ne_of_lt hlt heq
  · have hwe := hc w hw (hwp.trans (List.prefix_append _ _))
    have := (hwe ▸ hwp).length_le
    simp only [List.length_append, List.length_cons] at this
    omega

theorem replicate_prefix_of_le : ∀ (n : Nat) {k : Key}, List.replicate n 255 ≤ k → List.replicate n 255 <+: k
  | 0, _, _ => List.nil_prefix
  | n + 1, [], h => absurd h (not_le.2 List.Lex.nil)
  | n + 1, c :: k, h => by
    rw [List.replicate_succ, cons_le_cons] at h
    rcases h with h | ⟨rfl, h⟩
    · exact absurd h (not_lt.2 (Fin.le_last c))
    · exact (List.prefix_cons_inj _).2 (replicate_prefix_of_le n h)

theorem prefix_of_le_of_lt_incr {b : Byte} {n : Nat} (hb : b ≠ 255) :
    ∀ (p : Key) {k : Key}, p ++ b :: List.replicate n 255 ≤ k → k < p ++ [b + 1] →
      p ++ b :: List.replicate n 255 <+: k
  | [], [], h1, _ => absurd h1 (not_le.2 List.Lex.nil)
  | [], c :: k, h1, h2 => by
    have hb1 : ((b + 1 : Byte) : Nat) = b + 1 := Fin.val_add_one_of_lt (lt_of_le_of_ne (Fin.le_last b) hb)
    rw [List.nil_append, cons_le_cons] at h1
    rcases h2 with _ | h2 | h2
    · exact (List.Lex.not_nil_right _ _ h2).elim
    · rcases h1 with h1 | ⟨hbc, h1⟩
      · simp only [Fin.lt_def, hb1] at h1 h2; omega
      subst hbc
      exact (List.prefix_cons_inj _).2 (replicate_prefix_of_le n h1)
  | a :: p, [], h1, _ => absurd h1 (not_le.2 List.Lex.nil)
  | a :: p, c :: k, h1, h2 => by
    simp only [List.cons_append] at h1 h2 ⊢
    rw [cons_le_cons] at h1
    rcases h1 with h1 | ⟨rfl, h1⟩
    · exact absurd h2 (not_lt.2 (le_of_lt (.rel h1)))
    · exact (List.prefix_cons_inj _).2 (prefix_of_le_of_lt_incr hb p h1 (List.Lex.cons_iff.1 h2))

/-- **`[v, strinc v)` holds only keys that start with `v`.** -/
theorem prefix_of_lt_strinc {v h k : Key} (hs : strinc v = some h) (h1 : v ≤ k) (h2 : k < h) : v <+: k := by
  obtain ⟨p, b, n, rfl, hb, rfl⟩ := strinc_eq_some hs
  exact prefix_of_le_of_lt_incr hb p h1 h2

/-! ## `lastBelow` -/

theorem find?_le_of_sorted {q : Key → Bool} {a : Key} :
    ∀ {l : List Key}, l.Sorted (· ≥ ·) → l.find? q = some a → ∀ p ∈ l, q p = true → p ≤ a
  | [], _, h => by simp at h
  | b :: l, hs, h => by
    intro p hp hq
    rw [List.find?_cons] at h
    split at h
    · cases h
      rcases List.mem_cons.1 hp with rfl | hp
      exacts [le_rfl, List.rel_of_sorted_cons hs p hp]
    · rename_i hb
      rcases List.mem_cons.1 hp with rfl | hp
      · exact absurd hq (by simpa using hb)
      · exact find?_le_of_sorted hs.of_cons h p hp hq

/-- **`lastBelow` is the greatest part below the bound**, when some part is below it. -/
theorem lastBelow_spec {parts : List Key} {hi : Key} (h : ∃ p ∈ parts, p < hi) :
    lastBelow parts hi ∈ parts ∧ lastBelow parts hi < hi ∧
      ∀ p ∈ parts, p < hi → p ≤ lastBelow parts hi := by
  have hmem : ∀ p, p ∈ (parts.insertionSort (· ≤ ·)).reverse ↔ p ∈ parts := fun p => by
    simp [(List.perm_insertionSort _ parts).mem_iff]
  have hs : ((parts.insertionSort (· ≤ ·)).reverse).Sorted (· ≥ ·) :=
    List.pairwise_reverse.2 (List.sorted_insertionSort (· ≤ ·) parts)
  obtain ⟨p0, hp0, hlt0⟩ := h
  cases hf : ((parts.insertionSort (· ≤ ·)).reverse.find? (· < hi)) with
  | none => exact absurd (List.find?_eq_none.1 hf p0 ((hmem p0).2 hp0)) (by simpa using hlt0)
  | some a =>
    have ha : lastBelow parts hi = a := by simp only [lastBelow, hf, Option.getD_some]
    rw [ha]
    exact ⟨(hmem a).1 (List.mem_of_find?_eq_some hf), by simpa using List.find?_some hf,
      fun p hp hlt => find?_le_of_sorted hs hf p ((hmem p).2 hp) (by simpa using hlt)⟩

/-! ## The test on a document's entries -/

/-- **The key parts of a document's entries in `index`**: the encoded values of its field, or,
for a compound index, the concatenations over the Cartesian product of its fields' values. -/
def indexParts (index : IndexInfo) (values : Key → List Key) : List Key :=
  if index.size = 1 then values (index.indexKeys.headD [])
  else cartesianKeys (index.indexKeys.map values)

theorem length_flatMap_map_append (values ws : List Key) :
    (values.flatMap fun v => ws.map (v ++ ·)).length = values.length * ws.length := by
  induction values with
  | nil => simp
  | cons v values ih =>
    simp only [List.flatMap_cons, List.length_append, List.length_map, ih, List.length_cons,
      Nat.succ_mul]
    omega

theorem foldl_length_cartesianKeys : ∀ (vs : List (List Key)) (a : Nat),
    (vs.map List.length).foldl (· * ·) a = a * (cartesianKeys vs).length
  | [], a => by simp [cartesianKeys]
  | v :: rest, a => by
    simp only [List.map_cons, List.foldl_cons, cartesianKeys, length_flatMap_map_append,
      foldl_length_cartesianKeys rest, Nat.mul_assoc]

/-- **Both tests are one test on the document's parts**: pass when there is one part, else
when the scan key starts with the greatest part below the bound. -/
theorem wouldBeLast_eq (index : IndexInfo) (values : Key → List Key) (scanKey hi : Key) :
    wouldBeLast index values scanKey hi =
      if (indexParts index values).length = 1 then true
      else (lastBelow (indexParts index values) hi).isPrefixOf scanKey := by
  unfold wouldBeLast simpleWouldBeLast compoundWouldBeLast indexParts
  split
  · rfl
  · rw [foldl_length_cartesianKeys, Nat.one_mul]

section Test

variable {index : IndexInfo} {values : Key → List Key} {pk hi w : Key}

/-- **At an entry below `hi`, the would-be-last test passes exactly when the entry's part is
the greatest among the document's entries below `hi`**: the parts prefix-free, and `hi`
cutting no entry. -/
theorem wouldBeLast_iff (hpf : PrefixFree (indexParts index values))
    (hcut : CutsNoEntry (indexParts index values) pk hi) (hw : w ∈ indexParts index values)
    (hlt : w ++ pk < hi) :
    wouldBeLast index values (w ++ pk) hi = true ↔
      ∀ v ∈ indexParts index values, v ++ pk < hi → v ≤ w := by
  have hwhi : w < hi := lt_of_le_of_lt (le_append w pk) hlt
  obtain ⟨hmem, hlast, hle⟩ := lastBelow_spec ⟨w, hw, hwhi⟩
  rw [wouldBeLast_eq]
  split
  · rename_i hone
    obtain ⟨u, hu⟩ := List.length_eq_one.1 hone
    simp only [hu, List.mem_singleton] at hw ⊢
    simp [hw]
  · rw [List.isPrefixOf_iff_prefix]
    constructor
    · intro hp v hv hvlt
      have heq : lastBelow (indexParts index values) hi = w :=
        (List.prefix_or_prefix_of_prefix hp (List.prefix_append w pk)).elim
          (hpf _ hmem w hw) fun h => (hpf w hw _ hmem h).symm
      exact heq ▸ hle v hv (lt_of_le_of_lt (le_append v pk) hvlt)
    · intro hgr
      have heq : lastBelow (indexParts index values) hi = w :=
        le_antisymm (hgr _ hmem (hcut _ hmem hlast)) (hle w hw hwhi)
      exact heq ▸ List.prefix_append w pk

/-- **Over the document's entries in `[lo, hi)`, in increasing order, the test keeps exactly
the last one.** `E` lists the entries `w ++ pk` of the document's parts that lie in the
range. -/
theorem filter_wouldBeLast {lo : Key} {E : List Key} (hpf : PrefixFree (indexParts index values))
    (hcut : CutsNoEntry (indexParts index values) pk hi) (hs : E.Sorted (· < ·))
    (hE : ∀ k, k ∈ E ↔ ∃ w ∈ indexParts index values, k = w ++ pk ∧ lo ≤ k ∧ k < hi) :
    E.filter (fun k => wouldBeLast index values k hi) = E.getLast?.toList := by
  rcases List.eq_nil_or_concat E with rfl | ⟨E, m, rfl⟩
  · rfl
  rw [List.concat_eq_append] at hs hE ⊢
  obtain ⟨wm, hwm, rfl, hlom, hmhi⟩ := (hE m).1 (by simp)
  have hbelow : ∀ e ∈ E, e < wm ++ pk := fun e he =>
    (List.pairwise_append.1 hs).2.2 e he _ (List.mem_singleton_self _)
  -- the last entry's part is the greatest below `hi`
  have hgr : ∀ v ∈ indexParts index values, v ++ pk < hi → v ≤ wm := by
    intro v hv hvlt
    refine (@PrefixFree.append_le_append_iff _ pk hpf _ _ hv hwm).1 ?_
    rcases le_or_lt lo (v ++ pk) with hlo | hlo
    · rcases List.mem_append.1 ((hE _).2 ⟨v, hv, rfl, hlo, hvlt⟩) with hin | heq
      exacts [le_of_lt (hbelow _ hin), le_of_eq (List.mem_singleton.1 heq)]
    · exact le_of_lt (lt_of_lt_of_le hlo hlom)
  simp only [List.filter_append, List.getLast?_concat, Option.toList_some]
  rw [List.filter_eq_nil_iff.2, List.filter_singleton, (wouldBeLast_iff hpf hcut hwm hmhi).2 hgr]
  · rfl
  intro e he
  obtain ⟨w, hw, rfl, -, hlt⟩ := (hE _).1 (List.mem_append_left _ he)
  rw [Bool.not_eq_true, ← Bool.not_eq_true, wouldBeLast_iff hpf hcut hw hlt]
  intro hall
  exact absurd (hbelow _ he) (not_lt.2 ((hpf.append_le_append_iff hwm hw).2 (hall wm hwm hmhi)))

end Test

end DocLayer
