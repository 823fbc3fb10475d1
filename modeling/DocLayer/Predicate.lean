import DocLayer.Stream

/-! # Query predicates and index descriptors

The syntax the plans carry. Predicate and expression evaluation are external primitives of
the query layer (`QLPredicate`, `QLExpression`): the model keeps the syntax the planner
inspects and leaves the evaluation of leaves to the environment.

* **`Expr`** — `IExpression`; `ExtPathExpression` with its `get_index_key`, any other
  expression with the empty index key.
* **`Predicate`** — the closed family `ALL`, `NONE`, `AND`, `OR`, `NOT`, `ANY` of `IPredicate`,
  with the value predicates (equality, ranges, ...) as opaque leaves.
* **`IndexInfo`** — an index: its name and the paths of its key fields. -/

namespace DocLayer

/-- **`IExpression`**: a path expansion, or another expression named by an id. -/
inductive Expr
  /-- `ExtPathExpression(path, expandLastArray, imputeNulls)`. -/
  | extPath (path : Key) (expandLastArray imputeNulls : Bool)
  /-- Any other expression; it indexes by nothing. -/
  | other (id : Nat)
  deriving DecidableEq, Repr

/-- **`get_index_key()`**: the index that indexes by the values of the expression, as the path
of its key; empty for none. `ExtPathExpression` answers its path when it expands the last
array. -/
def Expr.getIndexKey : Expr → Key
  | .extPath path expandLastArray _ => if expandLastArray then path else []
  | .other _ => []

/-- **`IPredicate`**, by its type code. -/
inductive Predicate
  | all
  | none
  | and (terms : List Predicate)
  | or (terms : List Predicate)
  | not (p : Predicate)
  /-- `ANY(expr, pred)`: some value of `expr` satisfies `pred`. -/
  | any (expr : Expr) (pred : Predicate)
  /-- A value predicate (`EqPredicate`, `RangePredicate`, ...), named by an id. -/
  | leaf (id : Nat)
  deriving Repr

/-- **`IndexInfo`**: an index's name and the paths of its key fields, in order. -/
structure IndexInfo where
  indexName : Nat
  indexKeys : List Key
  deriving DecidableEq, Repr

/-- `IndexInfo::size()`: the number of key fields. -/
def IndexInfo.size (i : IndexInfo) : Nat := i.indexKeys.length

end DocLayer
