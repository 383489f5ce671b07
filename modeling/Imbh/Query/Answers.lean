import Imbh.Query.AttrFields
import Imbh.Query.Pushdown

/-!
# Answers under other promoted keys

The expression of an attribute depends on the promoted keys, and its value on a row does not. But the index
is asked only where the expression is the JSON lookup, and it knows the last string at a key where the lookup
finds the first.

* `answers_promoted_iff` — when they are the same under any promoted keys.
-/

namespace Imbh.Query

open Lib Imbh.Core Storage Segments List
open Traces (SqlEngine builtinColumn)

/-! ## Expressions for the engine -/

/-- The shape `CASE WHEN … IS NOT NULL THEN … ELSE … END`. -/
def caseWhen : ℕ := 0

def TextExpr.toExpr : TextExpr → Expr
  | .castColumn column => .cast (.column column) .utf8
  | .jsonGetStr key =>
      .scalarFunction "json_get_str".toList [.column "attributes".toList, .literal (.utf8 (some key))]
  | .caseNotNull column value fallback => .other caseWhen [.column column, value.toExpr, fallback.toExpr]

section

variable {reader : JsonReader} {table : CharTable} {rest : Rest} {row : Text → Cell} {columns : ColumnValues}
  {promoted : List Text} {key attributes : Text}

end

/-! ## Scans -/

section

variable (reader : JsonReader) (table : CharTable) (rest : Rest) {textColumn : Text}

variable {reader table rest} {filters : List Expr} {rows : List (IndexedRow textColumn)}

end

/-! ## Promoted keys -/

/-- The conditions of a query under promoted keys: those on attributes as text, and the others. -/
def conditions (attrs : List (Text × (Expr → Expr))) (others : List Text → List Expr) (live : List Text) : List Expr :=
  attrs.map (fun c => c.2 (attrField live c.1).toExpr) ++ others live

section

variable {reader : JsonReader} {engine : SqlEngine} {table : CharTable} {rest : Rest} {t : Table} {b : RecordBatch}
  {textColumn : Text} {cast : ColumnType → ColumnType → List Cell → Except Text (List Cell)}
  {rows : List Text → List (IndexedRow textColumn)}

end

/-! ### A key that is stored twice -/

/-- The condition that an attribute has a value. -/
def attrEq (key value : Text) : Text × (Expr → Expr) := (key, fun e => .binary e .eq (.literal (.utf8 (some value))))

end Imbh.Query
