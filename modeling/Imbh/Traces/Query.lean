import Imbh.Core.Json
import Imbh.Core.Tokens
import Imbh.Lib.Instants

/-!
# Trace queries and their conditions on a span

A stored span is its columns; a promoted column is NULL or the string at its key. A trace query
becomes a list of SQL conditions on the span, each of which is TRUE or not. What the SQL engine does
by itself, parsing numbers and matching patterns, is an `SqlEngine`.
-/

namespace Imbh.Traces

open Lib Imbh.Core

abbrev SpanId : Type := Bytes

abbrev TraceId : Type := Bytes

instance : LawfulBEq TraceId := inferInstanceAs (LawfulBEq (List UInt8))

/-- A row of the spans table. -/
structure StoredSpan (reader : JsonReader) where
  traceId : TraceId
  spanId : SpanId
  parentSpanId : Option SpanId
  name : Text
  kind : Text
  startTime : ℤ
  durationNs : ℕ
  statusCode : Text
  statusMessage : Option Text
  service : Option Text
  attributes : Text
  resource : Text
  scope : Text
  events : Option Text
  links : Option Text
  promoted : Text → Option Text
  promoted_eq : ∀ key s, promoted key = some s → jsonGetStr reader attributes key = some s

/-- What the SQL engine does by itself. -/
structure SqlEngine where
  parseF64 : Text → Option F64
  tryCastF64 : Text → Option F64
  regexpLike : Text → Text → Bool
  table : CharTable

/-- An engine that parses no number and matches no pattern. -/
def noEngine : SqlEngine where
  parseF64 _ := none
  tryCastF64 _ := none
  regexpLike _ _ := false
  table := { isAlphanumeric := fun _ => false, toLowercase := fun c => [c] }

/-! ## Attributes -/

/-- The column that a key names. Source: `sql.rs` `builtin_column` -/
def builtinColumn (key : Text) : Bool := key = "service".toList ∨ key = "service.name".toList

section

variable {reader : JsonReader} (engine : SqlEngine) (promoted : List Text)

/-- An attribute as text. Source: `sql.rs` `SqlParams::attr_field` -/
def attrField (key : Text) (s : StoredSpan reader) : Option Text :=
  if builtinColumn key then s.service
  else if key ∈ promoted then
    match s.promoted key with
    | some v => some v
    | none => jsonGetStr reader s.attributes key
  else jsonGetStr reader s.attributes key

/-- An attribute as a number. Source: `sql.rs` `SqlParams::attr_num_field` -/
def attrNumField (key : Text) (s : StoredSpan reader) : Option F64 :=
  if builtinColumn key then s.service.bind engine.tryCastF64
  else if key ∈ promoted then
    match s.promoted key with
    | some v => engine.tryCastF64 v
    | none => jsonGetNum reader engine.parseF64 s.attributes key
  else jsonGetNum reader engine.parseF64 s.attributes key

/-- But for the keys of the service column, an attribute is the string at its key, promoted or not. -/
theorem attrField_eq {key : Text} (h : builtinColumn key = false) (s : StoredSpan reader) :
    attrField promoted key s = jsonGetStr reader s.attributes key := by
  unfold attrField
  rw [if_neg (by rw [h]; exact Bool.false_ne_true)]
  split
  · split
    · rename_i v hv
      exact (s.promoted_eq key v hv).symm
    · rfl
  · rfl

/-- A number at a key that is not a string is read as such, promoted or not. -/
theorem attrNumField_eq {key : Text} (h : builtinColumn key = false) (s : StoredSpan reader)
    (hstr : jsonGetStr reader s.attributes key = none) :
    attrNumField engine promoted key s = jsonGetNum reader engine.parseF64 s.attributes key := by
  unfold attrNumField
  rw [if_neg (by rw [h]; exact Bool.false_ne_true)]
  split
  · split
    · rename_i v hv
      rw [s.promoted_eq key v hv] at hstr
      exact absurd hstr (by simp)
    · rfl
  · rfl

end

/-! ## Assembled traces -/

/-- The spans of one trace, as they are fetched. -/
structure StoredTrace (reader : JsonReader) where
  traceId : TraceId
  spans : List (StoredSpan reader)

namespace StoredTrace

variable {reader : JsonReader}

/-- The earliest start of a span. Source: `traces.rs` `assemble_trace` -/
def startTime (t : StoredTrace reader) : ℤ := (t.spans.map StoredSpan.startTime).min?.getD 0

/-- Source: `traces.rs` `assemble_trace` -/
def stopTime (t : StoredTrace reader) : ℤ :=
  (t.spans.map fun s => saturatingAdd s.startTime (wrapI64 s.durationNs)).max?.getD 0

/-- Source: `traces.rs` `assemble_trace` -/
def durationNs (t : StoredTrace reader) : ℕ := (wrapI64 (t.stopTime - t.startTime)).toNat

/-- The first span without a parent, or the first span. Source: `traces.rs` `assemble_trace` -/
def root (t : StoredTrace reader) : Option (StoredSpan reader) :=
  (t.spans.find? fun s => s.parentSpanId.isNone).or t.spans.head?

end StoredTrace

/-! ## Queries -/

/-- Source: `logs.rs` `NumOp` -/
inductive NumOp
  | gt
  | ge
  | lt
  | le
  deriving DecidableEq

/-- The order is one of those that the operator names. Source: `logs.rs` `NumOp::as_sql` -/
def NumOp.accepts : NumOp → Ordering → Bool
  | .gt, .gt | .ge, .gt | .ge, .eq | .lt, .lt | .le, .lt | .le, .eq => true
  | _, _ => false

/-- A comparison of two doubles, in the total order. -/
def NumOp.holds (op : NumOp) (a b : F64) : Bool := op.accepts (F64.totalCmp a b)

/-- The literal of a double in a statement; the negative zero is the integer 0. -/
def sqlLiteral (n : F64) : F64 := if n = BitVec.ofNat 64 (2 ^ 63) then 0 else n

/-- Source: `imbh-core` `TimeRange` -/
structure TimeRange where
  start : ℤ
  stop : ℤ
  deriving DecidableEq

/-- Source: `traces.rs` `TraceQuery` -/
structure TraceQuery where
  service : Option Text
  name : Option Text
  text : Option Text
  minDurationNs : Option ℕ
  maxDurationNs : Option ℕ
  status : Option Text
  kind : Option Text
  attrEq : List (Text × Text)
  attrExists : List Text
  attrMatches : List (Text × Text)
  attrIn : List (Text × List Text)
  attrNotIn : List (Text × List Text)
  attrNum : List (Text × NumOp × F64)
  attrRegex : List (Text × Text)
  traceStartRange : Option TimeRange
  traceStartEndInclusive : Bool
  range : Option TimeRange
  limit : ℕ

/-- Source: `traces.rs` `TraceQuery::default` -/
def TraceQuery.new : TraceQuery where
  service := none
  name := none
  text := none
  minDurationNs := none
  maxDurationNs := none
  status := none
  kind := none
  attrEq := []
  attrExists := []
  attrMatches := []
  attrIn := []
  attrNotIn := []
  attrNum := []
  attrRegex := []
  traceStartRange := none
  traceStartEndInclusive := false
  range := none
  limit := 20

/-- The instant is in the range; a bound that is the least or the greatest instant is open. -/
def TimeRange.admits (r : TimeRange) (inclusive : Bool) (t : ℤ) : Bool :=
  decide (r.start = minInstant ∨ r.start ≤ t) &&
    decide (r.stop = maxInstant ∨ if inclusive then t ≤ r.stop else t < r.stop)

section

variable {reader : JsonReader} (engine : SqlEngine) (promoted : List Text)

/-- The conditions of a query on a span; each is whether the SQL condition is TRUE.
Source: `traces.rs` `TraceQuery::span_conditions` -/
def TraceQuery.spanConditions (q : TraceQuery) : List (StoredSpan reader → Bool) :=
  List.flatten
    [ q.range.toList.map fun r s => r.admits false s.startTime,
      q.service.toList.map fun v s => decide (s.service = some v),
      q.name.toList.map fun v s => decide (s.name = v),
      q.text.toList.map fun v s => matchesTerms engine.table s.name v,
      q.minDurationNs.toList.map fun d s => decide (d ≤ s.durationNs),
      q.maxDurationNs.toList.map fun d s => decide (s.durationNs ≤ d),
      q.status.toList.map fun v s => decide (s.statusCode = v),
      q.kind.toList.map fun v s => decide (s.kind = v),
      q.attrEq.map fun kv s => decide (attrField promoted kv.1 s = some kv.2),
      q.attrExists.map fun k s => (attrField promoted k s).isSome,
      q.attrMatches.map fun kv s => (attrField promoted kv.1 s).any fun v =>
        matchesTerms engine.table v kv.2,
      q.attrIn.map fun kv s => (attrField promoted kv.1 s).any fun v => v ∈ kv.2,
      q.attrNotIn.map fun kv s => (attrField promoted kv.1 s).all fun v => v ∉ kv.2,
      q.attrNum.map fun kv s => (attrNumField engine promoted kv.1 s).any fun v =>
        kv.2.1.holds v (sqlLiteral kv.2.2),
      q.attrRegex.map fun kv s => (attrField promoted kv.1 s).any fun v => engine.regexpLike v kv.2 ]

/-- The span satisfies all conditions of the query. -/
def TraceQuery.matchesSpan (q : TraceQuery) (s : StoredSpan reader) : Bool :=
  (q.spanConditions engine promoted).all fun c => c s

end

end Imbh.Traces
