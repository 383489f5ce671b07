import Mathlib.Data.List.Infix
import Imbh.Query.AttrFields

/-!
# Conditions in SQL

The conditions on strings and instants that a query is rendered to. They have three values: TRUE, FALSE
and NULL; a statement fails where a pattern is none.
-/

namespace Imbh.Query

open Lib Imbh.Core Storage Segments
open Traces (TimeRange)

/-! ## Syntax -/

/-- A string that is compared. -/
inductive Operand
  | column (name : Text)
  | attribute (e : TextExpr)
  | jsonGetStr (column key : Text)
  | coalesceEmpty (o : Operand)

inductive TimeOp
  | ge
  | le
  | lt
  deriving DecidableEq

inductive Condition
  | never
  | time (op : TimeOp) (ns : ℤ)
  | eq (o : Operand) (value : Text)
  | ne (o : Operand) (value : Text)
  | regexpLike (o : Operand) (pattern : Text)
  | strposPositive (o : Operand) (needle : Text)
  | strposZero (o : Operand) (needle : Text)
  | matches (o : Operand) (query : Text)
  | not (c : Condition)

/-- The conditions of a range; a bound that is the least or the greatest instant is left out.
Source: `logs.rs` `LogQuery::where_sql`, `metrics.rs` `MetricPointsQuery::to_sql` -/
def rangeConditions (range : TimeRange) (endInclusive : Bool) : List Condition :=
  (if range.start = minInstant then [] else [.time .ge range.start]) ++
    if range.stop = maxInstant then [] else [.time (if endInclusive then .le else .lt) range.stop]

/-! ## Values -/

def TimeOp.holds : TimeOp → ℤ → ℤ → Bool
  | .ge, a, b => b ≤ a
  | .le, a, b => a ≤ b
  | .lt, a, b => a < b

/-- A cell of a column of instants. -/
def asTime : Cell → Option ℤ
  | .time t => some t
  | _ => none

/-- A conjunction: FALSE if one of them is, else NULL if one of them is. -/
def conjoin : Option Bool → Option Bool → Option Bool
  | some false, _ | _, some false => some false
  | some true, some true => some true
  | _, _ => none

section

variable (reader : JsonReader) (regex : Text → Option (Text → Bool)) (table : CharTable)
  (row : Text → Cell)

def Operand.eval : Operand → Option Text
  | .column name => asText (row name)
  | .attribute e => e.eval reader row
  | .jsonGetStr name key => (asText (row name)).bind fun json => Core.jsonGetStr reader json key
  | .coalesceEmpty o => some (o.eval.getD [])

def Condition.eval : Condition → Except Text (Option Bool)
  | .never => return some false
  | .time op ns => return (asTime (row "time".toList)).map fun t => op.holds t ns
  | .eq o value => return (o.eval reader row).map fun s => s = value
  | .ne o value => return (o.eval reader row).map fun s => s ≠ value
  | .regexpLike o pattern =>
      match regex pattern with
      | none => .error "regexp_like".toList
      | some isMatch => return (o.eval reader row).map isMatch
  | .strposPositive o needle => return (o.eval reader row).map fun s => needle <:+: s
  | .strposZero o needle => return (o.eval reader row).map fun s => ¬ needle <:+: s
  | .matches o query => return (o.eval reader row).map fun s => matchesTerms table s query
  | .not c => return (← c.eval).map (!·)

/-- The conditions of a statement, joined by `AND`. -/
def evalWhere : List Condition → Except Text (Option Bool)
  | [] => return some true
  | c :: conds => return conjoin (← c.eval reader regex table row) (← evalWhere conds)

/-- The condition is TRUE on the row. -/
def Condition.Holds (c : Condition) : Prop := c.eval reader regex table row = .ok (some true)

end

section

variable {reader : JsonReader} {regex : Text → Option (Text → Bool)} {table : CharTable}
  {row : Text → Cell} {o : Operand}

attribute [local simp] Condition.Holds Condition.eval

theorem conjoin_true {a b : Option Bool} :
    conjoin a b = some true ↔ a = some true ∧ b = some true := by
  rcases a with _ | _ | _ <;> rcases b with _ | _ | _ <;> decide

/-- A conjunction is TRUE, if and only if each of its conditions is. -/
theorem evalWhere_true {conds : List Condition} :
    evalWhere reader regex table row conds = .ok (some true) ↔
      ∀ c ∈ conds, c.Holds reader regex table row := by
  induction conds with
  | nil => exact ⟨fun _ c hc => absurd hc List.not_mem_nil, fun _ => rfl⟩
  | cons c conds ih =>
    rw [List.forall_mem_cons, ← ih, evalWhere, Condition.Holds]
    rcases c.eval reader regex table row with e | a
    · exact ⟨fun h => (nomatch h), fun h => (nomatch h.1)⟩
    · rcases evalWhere reader regex table row conds with e | b
      · exact ⟨fun h => (nomatch h), fun h => (nomatch h.2)⟩
      · constructor
        · intro h
          obtain ⟨ha, hb⟩ := conjoin_true.mp (Except.ok.inj h)
          rw [ha, hb]
          exact ⟨rfl, rfl⟩
        · rintro ⟨ha, hb⟩
          exact congrArg Except.ok (conjoin_true.mpr ⟨Except.ok.inj ha, Except.ok.inj hb⟩)

theorem holds_never : ¬ Condition.never.Holds reader regex table row := by
  simp [pure, Except.pure]

/-- A test of a value that is not NULL. -/
theorem ok_some_true {b : Bool} : (.ok (some b) : Except Text (Option Bool)) = .ok (some true) ↔ b = true := by
  constructor
  · intro h
    exact Option.some.inj (Except.ok.inj h)
  · intro h
    rw [h]

theorem holds_eq {s value : Text} (ho : o.eval reader row = some s) :
    (Condition.eq o value).Holds reader regex table row ↔ s = value := by
  rw [Condition.Holds, Condition.eval, ho]
  exact ok_some_true.trans decide_eq_true_iff

theorem holds_ne {s value : Text} (ho : o.eval reader row = some s) :
    (Condition.ne o value).Holds reader regex table row ↔ s ≠ value := by
  rw [Condition.Holds, Condition.eval, ho]
  exact ok_some_true.trans decide_eq_true_iff

theorem holds_regexpLike {s pattern : Text} (ho : o.eval reader row = some s) :
    (Condition.regexpLike o pattern).Holds reader regex table row ↔
      ∃ isMatch, regex pattern = some isMatch ∧ isMatch s = true := by
  rw [Condition.Holds, Condition.eval, ho]
  rcases regex pattern with _ | isMatch
  · exact ⟨fun h => (nomatch h), fun ⟨_, h, _⟩ => (nomatch h)⟩
  · refine ok_some_true.trans ?_
    exact ⟨fun h => ⟨isMatch, rfl, h⟩, fun ⟨_, h, hs⟩ => by rwa [← Option.some.inj h] at hs⟩

theorem holds_not_regexpLike {s pattern : Text} (ho : o.eval reader row = some s) :
    (Condition.not (.regexpLike o pattern)).Holds reader regex table row ↔
      ∃ isMatch, regex pattern = some isMatch ∧ isMatch s = false := by
  rw [Condition.Holds, Condition.eval, Condition.eval, ho]
  rcases regex pattern with _ | isMatch
  · exact ⟨fun h => (nomatch h), fun ⟨_, h, _⟩ => (nomatch h)⟩
  · refine ok_some_true.trans ?_
    rw [Bool.not_eq_true']
    exact ⟨fun h => ⟨isMatch, rfl, h⟩, fun ⟨_, h, hs⟩ => by rwa [← Option.some.inj h] at hs⟩

theorem holds_strposPositive {s needle : Text} (ho : o.eval reader row = some s) :
    (Condition.strposPositive o needle).Holds reader regex table row ↔ needle <:+: s := by
  rw [Condition.Holds, Condition.eval, ho]
  exact ok_some_true.trans decide_eq_true_iff

theorem holds_strposZero {s needle : Text} (ho : o.eval reader row = some s) :
    (Condition.strposZero o needle).Holds reader regex table row ↔ ¬ needle <:+: s := by
  rw [Condition.Holds, Condition.eval, ho]
  exact ok_some_true.trans decide_eq_true_iff

theorem holds_matches {s query : Text} (ho : o.eval reader row = some s) :
    (Condition.matches o query).Holds reader regex table row ↔ matchesTerms table s query = true := by
  rw [Condition.Holds, Condition.eval, ho]
  exact ok_some_true

theorem holds_not_matches {s query : Text} (ho : o.eval reader row = some s) :
    (Condition.not (.matches o query)).Holds reader regex table row ↔
      matchesTerms table s query = false := by
  rw [Condition.Holds, Condition.eval, Condition.eval, ho]
  refine ok_some_true.trans ?_
  rw [Bool.not_eq_true']

theorem holds_time {op : TimeOp} {t ns : ℤ} (htime : row "time".toList = .time t) :
    (Condition.time op ns).Holds reader regex table row ↔ op.holds t ns = true := by
  rw [Condition.Holds, Condition.eval, htime]
  exact ok_some_true

/-- The conditions of a closed range are TRUE on a row inside. -/
theorem holds_range {range : TimeRange} {t : ℤ} (htime : row "time".toList = .time t)
    (hstart : range.start ≤ t) (hstop : t ≤ range.stop) {c : Condition}
    (hc : c ∈ rangeConditions range true) : c.Holds reader regex table row := by
  unfold rangeConditions at hc
  rcases List.mem_append.mp hc with hc | hc
  · split at hc
    · exact absurd hc List.not_mem_nil
    · rw [List.mem_singleton.mp hc]
      exact (holds_time htime).mpr (decide_eq_true hstart)
  · split at hc
    · exact absurd hc List.not_mem_nil
    · rw [List.mem_singleton.mp hc]
      exact (holds_time htime).mpr (decide_eq_true hstop)

end

end Imbh.Query
