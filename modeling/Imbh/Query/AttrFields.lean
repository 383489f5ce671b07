import Imbh.Segments.Promotion
import Imbh.Traces.Query

/-!
# Attributes in SQL

An attribute of a row is read by an SQL expression: the built-in column that its key names, the promoted
column with the JSON as its fallback, or the JSON. The columns are those of a stored batch under the
schema of the keys in force.
-/

namespace Imbh.Query

open Lib Imbh.Core Storage Segments List
open Traces (SqlEngine builtinColumn)

/-! ## Expressions -/

/-- An expression of type `VARCHAR`. -/
inductive TextExpr
  | castColumn (column : Text)
  | jsonGetStr (key : Text)
  | caseNotNull (column : Text) (value fallback : TextExpr)

/-- An expression of type `DOUBLE`. -/
inductive NumExpr
  | tryCast (e : TextExpr)
  | jsonGetNum (key : Text)
  | caseNotNull (column : Text) (value fallback : NumExpr)

section

variable (promoted : List Text)

/-- Source: `sql.rs` `SqlParams::attr_field` -/
def attrField (key : Text) : TextExpr :=
  if builtinColumn key then .castColumn "service".toList
  else if key ∈ promotedColumns promoted then .caseNotNull key (.castColumn key) (.jsonGetStr key)
  else .jsonGetStr key

/-- Source: `sql.rs` `SqlParams::attr_num_field` -/
def attrNumField (key : Text) : NumExpr :=
  if builtinColumn key then .tryCast (.castColumn "service".toList)
  else if key ∈ promotedColumns promoted then
    .caseNotNull key (.tryCast (.castColumn key)) (.jsonGetNum key)
  else .jsonGetNum key

end

/-- A cell of a text column. -/
def asText : Cell → Option Text
  | .text s => some s
  | _ => none

section

variable (reader : JsonReader) (engine : SqlEngine) (row : Text → Cell)

/-- The value on a row, or NULL. -/
def TextExpr.eval : TextExpr → Option Text
  | .castColumn column => asText (row column)
  | .jsonGetStr key => (asText (row "attributes".toList)).bind fun a => Core.jsonGetStr reader a key
  | .caseNotNull column value fallback => if row column ≠ .null then value.eval else fallback.eval

def NumExpr.eval : NumExpr → Option F64
  | .tryCast e => (e.eval reader row).bind engine.tryCastF64
  | .jsonGetNum key =>
      (asText (row "attributes".toList)).bind fun a => Core.jsonGetNum reader engine.parseF64 a key
  | .caseNotNull column value fallback => if row column ≠ .null then value.eval else fallback.eval

/-- A promoted column has the string at its key, or NULL. -/
def Mirrors (key attributes : Text) : Prop :=
  row key = .null ∨ ∃ s, row key = .text s ∧ Core.jsonGetStr reader attributes key = some s

variable {reader row} {promoted : List Text} {key attributes : Text}

/-- An attribute as text is the string at its key, or the service column. -/
theorem eval_attrField (hattributes : row "attributes".toList = .text attributes)
    (hmirrors : key ∈ promotedColumns promoted → Mirrors reader row key attributes) :
    (attrField promoted key).eval reader row =
      if builtinColumn key then asText (row "service".toList) else Core.jsonGetStr reader attributes key := by
  have hjson : TextExpr.eval reader row (.jsonGetStr key) = Core.jsonGetStr reader attributes key := by
    rw [TextExpr.eval, hattributes]
    rfl
  unfold attrField
  split
  · rfl
  · split
    · rename_i hpromoted
      rw [TextExpr.eval]
      rcases hmirrors hpromoted with hnull | ⟨s, htext, hstr⟩
      · rw [if_neg (not_not.mpr hnull), hjson]
      · rw [if_pos (by rw [htext]; simp), hstr, TextExpr.eval, htext]
        rfl
    · exact hjson

end

/-! ## Stored batches -/

section

variable (reader : JsonReader)

/-- A batch of a segment: its rows were sealed under the promoted keys of the time, or it was rewritten
from stored batches under those of a later time. -/
inductive Stored (t : Table) : RecordBatch → Prop
  | sealed {rows : List (StoredRow t)} {promote : List Text} {b : RecordBatch}
      (h : rowsToBatch reader t rows promote = .ok b) : Stored t b
  | rewritten {env : RewriteEnv} {buildIndex : Bool} {promote : List Text} {sources : List SegmentRef}
      {w : Rewritten}
      (hsources : ∀ s ∈ sources, ∀ file, env.readParquetFile s.relativePath = .ok file →
        ∀ b ∈ file, Stored t b)
      (h : rewriteGroup reader env (rewriteParams t).1 buildIndex (tableSchemaFor t promote) promote
        sources = .ok (some w)) : Stored t w.batch

variable {t : Table}

end

/-! ## Reading a stored batch -/

section

variable {reader : JsonReader} {t : Table} {promote live : List Text} {rows : List (StoredRow t)}

theorem lookupPromoted_eq (attributes key : Text) :
    lookupPromoted reader attributes key = Core.jsonGetStr reader attributes key := by
  unfold lookupPromoted Core.jsonGetStr
  rcases jsonGet reader attributes key with _ | v
  · rfl
  · cases v <;> rfl

theorem service_mem_fixedFields (t : Table) : field "service" .dictUtf8 true ∈ fixedFields t := by
  cases t <;> decide

end

end Imbh.Query
