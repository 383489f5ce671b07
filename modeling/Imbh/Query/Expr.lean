import Imbh.Lib.Text

/-!
# Filter expressions

The part of the query engine's expressions that the table provider looks at, and what they evaluate
to on a row. A row gives each column its value. NULL is a value of a type without a content. What a cast
and a function do, and an operator where the provider claims nothing, is left open, as `Rest`.
-/

namespace Imbh.Query

open Lib

inductive TimeUnit
  | second
  | millisecond
  | microsecond
  | nanosecond
  deriving DecidableEq

/-- The Arrow types; `other` are those the provider does not tell apart. A binary type may have a
width. -/
inductive DataType
  | int64
  | timestamp (unit : TimeUnit) (tz : Option Text)
  | utf8
  | binary (width : Option ℕ)
  | other (id : ℕ)
  deriving DecidableEq

/-- A value, of a type. -/
inductive ScalarValue
  | int64 (v : Option ℤ)
  | timestamp (unit : TimeUnit) (v : Option ℤ) (tz : Option Text)
  | utf8 (v : Option Text)
  | binary (v : Option Bytes)
  | boolean (v : Option Bool)
  | other (id : ℕ)
  deriving DecidableEq

inductive Operator
  | eq
  | notEq
  | lt
  | ltEq
  | gt
  | gtEq
  | and
  | or
  | other (id : ℕ)
  deriving DecidableEq

/-- An expression; `other` are the shapes the provider does not look into. -/
inductive Expr
  | column (name : Text)
  | literal (v : ScalarValue)
  | cast (e : Expr) (t : DataType)
  | binary (l : Expr) (op : Operator) (r : Expr)
  | not (e : Expr)
  | inList (e : Expr) (list : List Expr) (negated : Bool)
  | scalarFunction (name : Text) (args : List Expr)
  | other (id : ℕ) (args : List Expr)

/-- A row, as the values of its columns. -/
abbrev ColumnValues : Type := Text → ScalarValue

/-- What is not determined here: the casts, other operators, the functions and other shapes. -/
structure Rest where
  cast : ScalarValue → DataType → ScalarValue
  binary : Operator → ScalarValue → ScalarValue → ScalarValue
  function : Text → List ScalarValue → ScalarValue
  other : ℕ → List ScalarValue → ScalarValue

/-- A comparison of two integers. -/
def Operator.compare : Operator → Option (ℤ → ℤ → Bool)
  | .eq => some fun a b => a = b
  | .notEq => some fun a b => a ≠ b
  | .lt => some fun a b => a < b
  | .ltEq => some fun a b => a ≤ b
  | .gt => some fun a b => b < a
  | .gtEq => some fun a b => b ≤ a
  | _ => none

/-- A test of two operands: NULL if one of them is. -/
def test {α : Type} (p : α → α → Bool) (a b : Option α) : ScalarValue :=
  .boolean (a.bind fun x => b.map (p x))

/-- The bytes of a binary value or of a text. -/
def ScalarValue.bytes : ScalarValue → Option Bytes
  | .binary v => v
  | .utf8 v => v.map encodeText
  | _ => none

/-- A conjunction: FALSE if one of them is, else NULL if one of them is. -/
def evalAnd (a b : Option Bool) : ScalarValue :=
  .boolean <|
    match a, b with
    | some false, _ | _, some false => some false
    | some true, some true => some true
    | _, _ => none

/-- A disjunction: TRUE if one of them is, else NULL if one of them is. -/
def evalOr (a b : Option Bool) : ScalarValue :=
  .boolean <|
    match a, b with
    | some true, _ | _, some true => some true
    | some false, some false => some false
    | _, _ => none

/-- Whether the value is a binary one or a text. -/
def ScalarValue.isBytes : ScalarValue → Bool
  | .binary _ | .utf8 _ => true
  | _ => false

/-- An operator. Integers, and instants of one unit, are compared; texts and bytes are equal when
their bytes are. -/
def evalBinary (rest : Rest) (op : Operator) (l r : ScalarValue) : ScalarValue :=
  match l, r with
  | .int64 a, .int64 b =>
      match op.compare with
      | some p => test p a b
      | none => rest.binary op l r
  | .timestamp u a _, .timestamp u' b _ =>
      match op.compare with
      | some p => if u = u' then test p a b else rest.binary op l r
      | none => rest.binary op l r
  | .boolean a, .boolean b =>
      match op with
      | .and => evalAnd a b
      | .or => evalOr a b
      | _ => rest.binary op l r
  | l, r =>
      if op = .eq ∧ l.isBytes ∧ r.isBytes then test (fun x y => x = y) l.bytes r.bytes
      else rest.binary op l r

def evalNot (rest : Rest) : ScalarValue → ScalarValue
  | .boolean v => .boolean (v.map (!·))
  | v => rest.function "not".toList [v]

/-- The disjunction of two values. -/
def orElse (rest : Rest) (l r : ScalarValue) : ScalarValue := evalBinary rest .or l r

/-- `v IN (vs)`: a disjunction of equalities. -/
def evalInList (rest : Rest) (v : ScalarValue) : List ScalarValue → ScalarValue
  | [] => .boolean (some false)
  | w :: ws => orElse rest (evalBinary rest .eq v w) (evalInList rest v ws)

mutual

/-- What an expression evaluates to on a row, the functions being `rest.function`. -/
def Expr.eval (rest : Rest) (row : ColumnValues) : Expr → ScalarValue
  | .column name => row name
  | .literal v => v
  | .cast e t => rest.cast (e.eval rest row) t
  | .binary l op r => evalBinary rest op (l.eval rest row) (r.eval rest row)
  | .not e => evalNot rest (e.eval rest row)
  | .inList e list negated =>
      let v := evalInList rest (e.eval rest row) (evalAll rest row list)
      if negated then evalNot rest v else v
  | .scalarFunction name args => rest.function name (evalAll rest row args)
  | .other id args => rest.other id (evalAll rest row args)

def evalAll (rest : Rest) (row : ColumnValues) : List Expr → List ScalarValue
  | [] => []
  | e :: es => e.eval rest row :: evalAll rest row es

end

/-- The expression is TRUE on the row. -/
def Expr.IsTrue (rest : Rest) (row : ColumnValues) (e : Expr) : Prop :=
  e.eval rest row = .boolean (some true)

theorem test_eq_true {α : Type} {p : α → α → Bool} {a b : Option α} :
    test p a b = .boolean (some true) ↔ ∃ x y, a = some x ∧ b = some y ∧ p x y = true := by
  unfold test
  rcases a with _ | x <;> rcases b with _ | y <;> simp

end Imbh.Query
