import DocLayer.Pushdown
import DocLayer.LastEntry
import Mathlib.Algebra.Order.BigOperators.Group.List
import Mathlib.Algebra.Order.Group.Nat
import Mathlib.Algebra.Order.Ring.Nat

/-! # What a plan emits, and what a predicate means

The rewriter is correct when a rewritten plan emits the documents the filter over its source
emits. This module says what that means, at the level the rewriter works on.

* **`Predicate.eval`** — a predicate on a context (a document, by its primary key, or one of
  its encoded values): the connectives as `IPredicate`'s subclasses evaluate them, `ANY(expr,
  pred)` holding when some value of `expr` satisfies `pred`.
* **`Predicate.orWeight`, `Predicate.NoEmptyOr`** — the terms of its `OR` nodes, counted
  over the tree, and that none of them is empty: what the `OR` case of `push_down` consumes.
* **`Collection`, `Plan.emits`** — the documents, the values of the expressions and the
  indexes' entries; the primary keys each plan emits. A scan over a range emits the documents
  having a key in it, each once; a filter those of its source that satisfy the predicate; a
  union both sides.
* **`IsKey`** — an index key: a concatenation of `n` key parts. Key parts being prefix-free,
  index keys of one index compare as their first differing part does (`IsKey.eq_of_between`).
-/

namespace DocLayer

/-! ### Predicates -/

section Eval

variable (leaf : Nat → Key → Bool) (values : Expr → Key → List Key)

mutual
/-- **Whether predicate `p` holds on context `c`**: `leaf` evaluates the value predicates on an
encoded value, `values` the expressions. -/
def Predicate.eval : Predicate → Key → Bool
  | .all, _ => true
  | .none, _ => false
  | .and ts, c => Predicate.evalAll ts c
  | .or ts, c => Predicate.evalAny ts c
  | .not p, c => !p.eval c
  | .any e p, c => (values e c).any fun v => p.eval v
  | .leaf i, c => leaf i c
/-- Every term holds. -/
def Predicate.evalAll : List Predicate → Key → Bool
  | [], _ => true
  | p :: ps, c => p.eval c && Predicate.evalAll ps c
/-- Some term holds. -/
def Predicate.evalAny : List Predicate → Key → Bool
  | [], _ => false
  | p :: ps, c => p.eval c || Predicate.evalAny ps c
end

@[simp] theorem Predicate.evalAll_eq (ts : List Predicate) (c : Key) :
    Predicate.evalAll leaf values ts c = ts.all fun t => t.eval leaf values c := by
  induction ts with
  | nil => rfl
  | cons t ts ih => simp [Predicate.evalAll, ih]

@[simp] theorem Predicate.evalAny_eq (ts : List Predicate) (c : Key) :
    Predicate.evalAny leaf values ts c = ts.any fun t => t.eval leaf values c := by
  induction ts with
  | nil => rfl
  | cons t ts ih => simp [Predicate.evalAny, ih]

end Eval

mutual
/-- **The terms of the `OR` nodes**, counted over the tree. -/
def Predicate.orWeight : Predicate → Nat
  | .and ts => Predicate.orWeightList ts
  | .or ts => ts.length + Predicate.orWeightList ts
  | .not p => p.orWeight
  | .any _ p => p.orWeight
  | _ => 0
/-- The `OR` terms of a list of predicates. -/
def Predicate.orWeightList : List Predicate → Nat
  | [] => 0
  | p :: ps => p.orWeight + Predicate.orWeightList ps
end

mutual
/-- **The number of nodes**. -/
def Predicate.size : Predicate → Nat
  | .and ts => 1 + Predicate.sizeList ts
  | .or ts => 1 + Predicate.sizeList ts
  | .not p => 1 + p.size
  | .any _ p => 1 + p.size
  | _ => 1
/-- The nodes of a list of predicates. -/
def Predicate.sizeList : List Predicate → Nat
  | [] => 0
  | p :: ps => p.size + Predicate.sizeList ps
end

mutual
/-- **No `OR` node has an empty list of terms** among the nodes `push_down` walks: the terms
of `AND` and `OR` nodes. -/
def Predicate.noEmptyOr : Predicate → Bool
  | .and ts => Predicate.noEmptyOrList ts
  | .or ts => !ts.isEmpty && Predicate.noEmptyOrList ts
  | _ => true
/-- No `OR` node of the list has an empty list of terms. -/
def Predicate.noEmptyOrList : List Predicate → Bool
  | [] => true
  | p :: ps => p.noEmptyOr && Predicate.noEmptyOrList ps
end

@[simp] theorem Predicate.orWeightList_eq (ts : List Predicate) :
    Predicate.orWeightList ts = (ts.map Predicate.orWeight).sum := by
  induction ts with
  | nil => rfl
  | cons t ts ih => simp [Predicate.orWeightList, ih]

@[simp] theorem Predicate.sizeList_eq (ts : List Predicate) :
    Predicate.sizeList ts = (ts.map Predicate.size).sum := by
  induction ts with
  | nil => rfl
  | cons t ts ih => simp [Predicate.sizeList, ih]

@[simp] theorem Predicate.noEmptyOrList_eq (ts : List Predicate) :
    Predicate.noEmptyOrList ts = ts.all Predicate.noEmptyOr := by
  induction ts with
  | nil => rfl
  | cons t ts ih => simp [Predicate.noEmptyOrList, ih]

/-- A term of a list is smaller than the list's node. -/
theorem Predicate.size_lt_of_mem {t : Predicate} {ts : List Predicate} (h : t ∈ ts) :
    t.size < 1 + (ts.map Predicate.size).sum := by
  have := List.le_sum_of_mem (List.mem_map_of_mem Predicate.size h)
  omega

theorem Predicate.orWeight_le_of_mem {t : Predicate} {ts : List Predicate} (h : t ∈ ts) :
    t.orWeight ≤ (ts.map Predicate.orWeight).sum :=
  List.le_sum_of_mem (List.mem_map_of_mem Predicate.orWeight h)

/-- **The `OR` rewrite removes one `OR` term**: `AND(OR(rest), NOT(last))` has one term fewer
than the `OR` whose last term is `last`. -/
theorem Predicate.orWeight_orRewrite {terms : List Predicate} {last : Predicate} (hl : terms.getLast? = some last) :
    (Predicate.and [.or terms.dropLast, .not last]).orWeight + 1 = (Predicate.or terms).orWeight := by
  conv_rhs => rw [← List.dropLast_append_getLast? last hl]
  simp [Predicate.orWeight]
  omega

/-! ### The collection and what each plan emits -/

/-- **The collection as the rewriter's correctness reads it**: its documents' encoded primary
keys; the encoded values an expression yields on a context; the value predicates; the
encoded key of each entry of an index for a document, without the primary key; and what the
operators the rewriter never builds emit. -/
structure Collection where
  docs : List Key
  values : Expr → Key → List Key
  leaf : Nat → Key → Bool
  indexValues : IndexInfo → Key → List Key
  other : Plan → List Key

/-- Predicate `p` on context `c` of the collection. -/
def Collection.holds (C : Collection) (p : Predicate) (c : Key) : Bool := p.eval C.leaf C.values c

namespace Collection

variable (C : Collection) (c : Key)

@[simp] theorem holds_all : C.holds .all c = true := rfl
@[simp] theorem holds_none : C.holds .none c = false := rfl
@[simp] theorem holds_not (p : Predicate) : C.holds (.not p) c = !C.holds p c := rfl
@[simp] theorem holds_any (e : Expr) (p : Predicate) : C.holds (.any e p) c = (C.values e c).any (C.holds p) := rfl

@[simp] theorem holds_and (ts : List Predicate) : C.holds (.and ts) c = ts.all fun t => C.holds t c := by
  simp [Collection.holds, Predicate.eval]

@[simp] theorem holds_or (ts : List Predicate) : C.holds (.or ts) c = ts.any fun t => C.holds t c := by
  simp [Collection.holds, Predicate.eval]

end Collection

/-- **`v` lies in `[begin, end]`**, an absent bound leaving that side open. -/
def inRange (begin end_ : Option Key) (v : Key) : Bool :=
  (begin.all fun b => decide (b ≤ v)) && (end_.all fun e => decide (v ≤ e))

@[simp] theorem inRange_none_left (e : Option Key) (v : Key) :
    inRange none e v = e.all fun e => decide (v ≤ e) := by simp [inRange]
@[simp] theorem inRange_some_left (b : Key) (e : Option Key) (v : Key) :
    inRange (some b) e v = (decide (b ≤ v) && e.all fun e => decide (v ≤ e)) := rfl

/-- **The primary keys a plan emits**, each document once per time it is emitted. A
primary-key lookup and an index scan over `[begin, end]` emit the documents having a key in
the range, each once (`deduplicateIndexStream` drops an index scan's repeats): what the scans
read from the range `[begin, strinc(end))` when keys are encoded order-preserving and
prefix-free. For the table scans, primary-key lookups, filters, unions and `EmptyPlan` this is
what every run of the executed plan sends (`streaming_plan_emits`); the operators the rewriter
never builds are left to `C.other`. -/
def Plan.emits (C : Collection) : Plan → List Key
  | .tableScan => C.docs
  | .primaryKeyLookup b e => C.docs.filter (inRange b e)
  | .indexScan index b e => C.docs.filter fun k => (C.indexValues index k).any (inRange b e)
  | .filter source f => (source.emits C).filter (C.holds f)
  | .union a b => a.emits C ++ b.emits C
  | .empty => []
  | p => C.other p

section Emits

variable (C : Collection)

@[simp] theorem Plan.emits_tableScan : Plan.tableScan.emits C = C.docs := rfl
@[simp] theorem Plan.emits_primaryKeyLookup (b e : Option Key) :
    (Plan.primaryKeyLookup b e).emits C = C.docs.filter (inRange b e) := rfl
@[simp] theorem Plan.emits_indexScan (index : IndexInfo) (b e : Option Key) :
    (Plan.indexScan index b e).emits C = C.docs.filter fun k => (C.indexValues index k).any (inRange b e) := rfl
@[simp] theorem Plan.emits_filter (source : Plan) (f : Predicate) :
    (Plan.filter source f).emits C = (source.emits C).filter (C.holds f) := rfl
@[simp] theorem Plan.emits_union (a b : Plan) : (Plan.union a b).emits C = a.emits C ++ b.emits C := rfl
@[simp] theorem Plan.emits_empty : Plan.empty.emits C = [] := rfl

end Emits

/-! ### Index keys -/

/-- **`a` is an index key of `n` fields**: `n` key parts, one after another. -/
inductive IsKey (keyPart : Key → Prop) : Nat → Key → Prop
  | nil : IsKey keyPart 0 []
  | snoc {n : Nat} {a p : Key} : IsKey keyPart n a → keyPart p → IsKey keyPart (n + 1) (a ++ p)

theorem append_le_append_left_iff : ∀ (v : Key) {x y : Key}, v ++ x ≤ v ++ y ↔ x ≤ y
  | [], _, _ => Iff.rfl
  | _ :: v, _, _ => cons_le_cons_iff.trans (append_le_append_left_iff v)

section IsKey

variable {keyPart : Key → Prop} (hpf : ∀ a b, keyPart a → keyPart b → a <+: b → a = b)
include hpf

/-- **Index keys of one index are prefix-free.** -/
theorem IsKey.eq_of_prefix : ∀ {n : Nat} {a b : Key}, IsKey keyPart n a → IsKey keyPart n b → a <+: b → a = b
  | _, _, _, .nil, .nil, _ => rfl
  | _, _, _, .snoc (a := a) (p := p) ha hp, .snoc (a := b) (p := q) hb hq, h => by
    have hab : a = b := by
      rcases List.prefix_or_prefix_of_prefix (List.prefix_append a p |>.trans h) (List.prefix_append b q) with h' | h'
      · exact IsKey.eq_of_prefix ha hb h'
      · exact (IsKey.eq_of_prefix hb ha h').symm
    subst hab
    rw [hpf p q hp hq ((List.prefix_append_right_inj a).1 h)]

/-- **Between two extensions of one index key lies only that key's extensions.** -/
theorem IsKey.eq_of_between {n : Nat} {a v x y z : Key} (ha : IsKey keyPart n a) (hv : IsKey keyPart n v)
    (h1 : v ++ x ≤ a ++ y) (h2 : a ++ y ≤ v ++ z) : a = v := by
  by_contra hne
  rcases lt_or_gt_of_ne hne with hlt | hlt
  · exact absurd h1 (not_le.2 (append_lt_append_of_lt y x hlt fun h => hne (IsKey.eq_of_prefix hpf ha hv h)))
  · exact absurd h2 (not_le.2 (append_lt_append_of_lt z y hlt fun h => hne (IsKey.eq_of_prefix hpf hv ha h).symm))

end IsKey

end DocLayer
