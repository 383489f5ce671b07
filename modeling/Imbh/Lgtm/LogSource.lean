import Imbh.Lgtm.LogQl
import Imbh.Lgtm.PromSource

/-!
# Filters of logs in SQL

A fetch of log entries becomes one query, with the filter as its conditions. Storage finds the value of a
label in a column or in the JSON of the row; the evaluator finds it among the labels that are read from
the batch.

* `filter_pushdown_iff` — the query selects a row when the filter matches its entry, for every filter over
  given labels, if and only if the source of each such label has one value on both sides.
-/

namespace Imbh.Lgtm

open Lib Imbh.Core Storage Segments Query List Option
open Traces (builtinColumn TimeRange)

/-! ## Queries -/

/-- Source: `logs.rs` `LogStringField` -/
inductive LogStringField
  | body
  | service
  | attribute (key : Text)
  | resourceAttribute (key : Text)
  deriving DecidableEq

/-- Source: `logs.rs` `StringPredicate` -/
inductive StringPredicate
  | eq
  | ne
  | regex
  | notRegex
  | contains
  | notContains
  | matches
  | notMatches
  deriving DecidableEq

/-- Source: `logs.rs` `LogStringPredicate` -/
structure LogStringPredicate where
  field : LogStringField
  op : StringPredicate
  value : Text

/-- Source: `imbh-core` `Direction` -/
inductive Direction
  | forward
  | backward
  deriving DecidableEq

/-- A query with what a fetch sets of it. Source: `logs.rs` `LogQuery` -/
structure LogQuery where
  stringPredicates : List LogStringPredicate
  matchNone : Bool
  range : Option TimeRange
  rangeEndInclusive : Bool
  limit : ℕ
  direction : Direction

/-- Source: `logs.rs` `LogQuery::new` -/
def LogQuery.new : LogQuery where
  stringPredicates := []
  matchNone := false
  range := none
  rangeEndInclusive := false
  limit := 100
  direction := .backward

/-- Source: `logs.rs` `LogQuery::string_predicate` -/
def LogQuery.stringPredicate (q : LogQuery) (field : LogStringField) (op : StringPredicate) (value : Text) :
    LogQuery :=
  { q with stringPredicates := q.stringPredicates ++ [⟨field, op, value⟩] }

/-- Source: `logs.rs` `LogQuery::where_sql`, the field of a string predicate -/
def LogStringField.operand (promoted : List Text) : LogStringField → Operand
  | .body => .column "body".toList
  | .service => .column "service".toList
  | .attribute key => .attribute (Query.attrField promoted key)
  | .resourceAttribute key => .jsonGetStr "resource".toList key

/-- Source: `logs.rs` `LogQuery::where_sql`, a string predicate -/
def LogStringPredicate.condition (promoted : List Text) (p : LogStringPredicate) : Condition :=
  let field := p.field.operand promoted
  let actual := .coalesceEmpty field
  match p.op with
  | .eq => .eq actual p.value
  | .ne => .ne actual p.value
  | .regex => .regexpLike actual p.value
  | .notRegex => .not (.regexpLike actual p.value)
  | .contains => .strposPositive actual p.value
  | .notContains => .strposZero actual p.value
  | .matches => .matches field p.value
  | .notMatches => .not (.matches field p.value)

/-- Source: `logs.rs` `LogQuery::where_sql` -/
def LogQuery.conditions (promoted : List Text) (q : LogQuery) : List Condition :=
  (if q.matchNone then [.never] else []) ++
    (q.range.toList.flatMap fun r => rangeConditions r q.rangeEndInclusive) ++
    q.stringPredicates.map fun p => p.condition promoted

/-! ## The filter as conditions -/

/-- Source: `logql.rs` `LogStreamSchema::source` -/
def LogStreamSchema.source (schema : LogStreamSchema) (label : Text) : Option LogLabelSource :=
  (schema.labels.find? fun l => l.1 = label).map Prod.snd

/-- Source: `source.rs` `log_string_field` -/
def logStringField : LogLabelSource → LogStringField
  | .service => .service
  | .attribute key => .attribute key
  | .resourceAttribute key => .resourceAttribute key

section

variable (regex : Text → Option (Text → Bool))

/-- Source: `source.rs` `constant_label_matches` -/
def constantLabelMatches : LogFilter → Except SemanticError Bool
  | .labelEq _ expected => .ok (expected = [])
  | .labelNe _ expected => .ok (expected ≠ [])
  | .labelRegex _ pattern =>
      match regex (anchored pattern) with
      | none => .error (.malformed "invalid LogQL stream regex".toList)
      | some isMatch => .ok (isMatch [])
  | .labelNotRegex _ pattern =>
      match regex (anchored pattern) with
      | none => .error (.malformed "invalid LogQL stream regex".toList)
      | some isMatch => .ok (!isMatch [])
  | _ => .error (.malformed "expected a label filter".toList)

variable (schema : LogStreamSchema)

/-- A label filter: a predicate on the label's field, or a constant where the label has none.
Source: `source.rs` `apply_log_filter` -/
def applyLabel (q : LogQuery) (filter : LogFilter) (name : Text) (op : StringPredicate) (value : Text) :
    Except SemanticError LogQuery :=
  match schema.source name with
  | some source => return q.stringPredicate (logStringField source) op value
  | none => do
      if ← constantLabelMatches regex filter then return q else return { q with matchNone := true }

mutual

/-- Source: `source.rs` `apply_log_filter` -/
def applyLogFilter (q : LogQuery) : LogFilter → Except SemanticError LogQuery
  | .all => return q
  | .labelEq name value => applyLabel regex schema q (.labelEq name value) name .eq value
  | .labelNe name value => applyLabel regex schema q (.labelNe name value) name .ne value
  | .labelRegex name pattern =>
      applyLabel regex schema q (.labelRegex name pattern) name .regex (anchored pattern)
  | .labelNotRegex name pattern =>
      applyLabel regex schema q (.labelNotRegex name pattern) name .notRegex (anchored pattern)
  | .lineContains value => return q.stringPredicate .body .contains value
  | .lineNotContains value => return q.stringPredicate .body .notContains value
  | .lineRegex value => return q.stringPredicate .body .regex value
  | .lineNotRegex value => return q.stringPredicate .body .notRegex value
  | .lineMatches value => return q.stringPredicate .body .matches value
  | .lineNotMatches value => return q.stringPredicate .body .notMatches value
  | .and filters => applyAll q filters

/-- Source: `source.rs` `apply_log_filter`, the loop over the filters -/
def applyAll (q : LogQuery) : List LogFilter → Except SemanticError LogQuery
  | [] => return q
  | f :: filters => do applyAll (← applyLogFilter q f) filters

end

/-- The query before its filter. Source: `source.rs` `build_log_query` -/
def boundedLogQuery (request : LogFetchRequest) : LogQuery :=
  { LogQuery.new with
    range := some ⟨request.bounds.startNs, request.bounds.endNs⟩
    rangeEndInclusive := true
    direction := .forward
    limit := min (request.maxEntries + 1) (2 ^ 64 - 1) }

/-- Source: `source.rs` `build_log_query` -/
def buildLogQuery (request : LogFetchRequest) : Except SemanticError LogQuery :=
  if validateLogSchema schema then applyLogFilter regex schema (boundedLogQuery request) request.filter
  else .error (.malformed "LogQL stream schema has an empty or duplicate label".toList)

end

/-! ## Rows -/

/-- A stored log row with its texts; the body and the resource are not nullable. -/
structure StoredLog extends SealedRow where
  body : Text
  service : Option Text
  resource : Text
  body_eq : row.cells "body".toList = .text body
  service_eq : row.cells "service".toList = promotedCell service
  resource_eq : row.cells "resource".toList = .text resource

section

variable (reader : JsonReader)

/-- The entry of a row. Source: `source.rs` `ImbhLogSource::fetch` -/
def semanticEntry (b : RecordBatch) (schema : LogStreamSchema) (row : ℕ) : LogEntry where
  timestampNs := ((columnAt b 0)[row]?.bind asTime).getD 0
  line := (colStr (columnAt b 5) row).getD []
  labels := (StreamLabelReader.new b schema).labels reader row

/-- The query of a request selects the row. -/
def LogSelected (regex : Text → Option (Text → Bool)) (table : CharTable) (promoted : List Text)
    (schema : LogStreamSchema) (request : LogFetchRequest) (row : Text → Cell) : Prop :=
  ∃ q, buildLogQuery regex schema request = .ok q ∧
    evalWhere reader regex table row (q.conditions promoted) = .ok (some true)

/-- The value that is read for an attribute: of its promoted column, or parsed. -/
def readAttribute (live : List Text) (s : SealedRow) (key : Text) : Option Text :=
  if key ∈ promotedColumns live then
    if key ∈ promotedColumns s.promote then jsonGetStr reader s.row.attributes key else none
  else parsedStr reader s.row.attributes key

/-- The source has one value on both sides. An attribute that is named as the service column is compared
as the service, so it must be read as that; the column of another promoted key is that of the segment, or
the row's string is empty or missing; and no text that is parsed is a sentinel of its own key. -/
def SourceKept (live : List Text) (s : StoredLog) : LogLabelSource → Prop
  | .service => True
  | .attribute key =>
      if builtinColumn key then
        (readAttribute reader live s.toSealedRow key).getD [] = s.service.getD []
      else if key ∈ promotedColumns live then
        key ∈ promotedColumns s.promote ∨ (jsonGetStr reader s.row.attributes key).getD [] = []
      else ¬ SentinelAt reader s.row.attributes key
  | .resourceAttribute key => ¬ SentinelAt reader s.resource key

end

mutual

/-- The labels that a filter names. -/
def LogFilter.labelNames : LogFilter → List Text
  | .labelEq name _ | .labelNe name _ | .labelRegex name _ | .labelNotRegex name _ => [name]
  | .and filters => labelNamesAll filters
  | _ => []

def labelNamesAll : List LogFilter → List Text
  | [] => []
  | f :: filters => f.labelNames ++ labelNamesAll filters

end

/-! ## The meaning of a filter -/

section

variable (regex : Text → Option (Text → Bool)) (table : CharTable) (label : Text → Text) (line : Text)

mutual

/-- What a filter says of a line whose labels are given; a pattern that is none says nothing. -/
def LogFilter.Says : LogFilter → Prop
  | .all => True
  | .labelEq name value => label name = value
  | .labelNe name value => label name ≠ value
  | .labelRegex name pattern => ∃ isMatch, regex (anchored pattern) = some isMatch ∧ isMatch (label name) = true
  | .labelNotRegex name pattern =>
      ∃ isMatch, regex (anchored pattern) = some isMatch ∧ isMatch (label name) = false
  | .lineContains needle => needle <:+: line
  | .lineNotContains needle => ¬ needle <:+: line
  | .lineRegex pattern => ∃ isMatch, regex pattern = some isMatch ∧ isMatch line = true
  | .lineNotRegex pattern => ∃ isMatch, regex pattern = some isMatch ∧ isMatch line = false
  | .lineMatches query => matchesTerms table line query = true
  | .lineNotMatches query => matchesTerms table line query = false
  | .and filters => SaysAll filters

def SaysAll : List LogFilter → Prop
  | [] => True
  | f :: filters => f.Says ∧ SaysAll filters

end

end

/-! ## The evaluator -/

section

variable {regex : Text → Option (Text → Bool)} {table : CharTable}

theorem not_ok_true {o : Except SemanticError Bool} :
    o.map (!·) = .ok true ↔ o = .ok false := by
  rcases o with e | _ | _ <;> simp [Except.map]

theorem labelMatch_iff {entry : LogEntry} {name pattern : Text} {b : Bool} :
    labelMatch regex entry name pattern = .ok b ↔
      ∃ isMatch, regex (anchored pattern) = some isMatch ∧ isMatch ((entry.labels.get name).getD []) = b :=
  compiled_iff

theorem lineMatch_iff {entry : LogEntry} {pattern : Text} {b : Bool} :
    lineMatch regex entry pattern = .ok b ↔
      ∃ isMatch, regex pattern = some isMatch ∧ isMatch entry.line = b :=
  compiled_iff

theorem ok_true {b : Bool} : (.ok b : Except SemanticError Bool) = .ok true ↔ b = true :=
  ⟨Except.ok.inj, congrArg Except.ok⟩

mutual

/-- A filter matches an entry, if and only if it says so of its labels and its line. -/
theorem filter_matches_iff {entry : LogEntry} : ∀ f : LogFilter, f.matches regex table entry = .ok true ↔
    f.Says regex table (fun name => (entry.labels.get name).getD []) entry.line
  | .all => iff_of_true rfl trivial
  | .labelEq _ _ => ok_decide
  | .labelNe _ _ => ok_decide
  | .labelRegex _ _ => labelMatch_iff
  | .labelNotRegex _ _ => not_ok_true.trans labelMatch_iff
  | .lineContains _ => ok_decide
  | .lineNotContains _ => ok_decide
  | .lineRegex _ => lineMatch_iff
  | .lineNotRegex _ => not_ok_true.trans lineMatch_iff
  | .lineMatches _ => ok_true
  | .lineNotMatches _ => by
      refine ok_true.trans ?_
      rw [Bool.not_eq_true']
      rfl
  | .and filters => by
      unfold LogFilter.matches LogFilter.Says
      exact matchesAll_iff filters

/-- An entry matches all filters that hold of its labels and its line. -/
theorem matchesAll_iff {entry : LogEntry} : ∀ filters : List LogFilter,
    matchesAll regex table entry filters = .ok true ↔
      SaysAll regex table (fun name => (entry.labels.get name).getD []) entry.line filters
  | [] => iff_of_true rfl trivial
  | f :: filters => by
      unfold matchesAll SaysAll
      rw [← filter_matches_iff f, ← matchesAll_iff filters]
      rcases f.matches regex table entry with e | _ | _
      · exact ⟨fun h => (nomatch h), fun h => (nomatch h.1)⟩
      · exact ⟨fun h => (nomatch h), fun h => (nomatch h.1)⟩
      · exact ⟨fun h => ⟨rfl, h⟩, fun h => h.2⟩

end

end

/-! ## Storage -/

section

variable {reader : JsonReader} {regex : Text → Option (Text → Bool)} {table : CharTable}
  {live : List Text} {schema : LogStreamSchema}

/-- The value that storage finds for a source. -/
def storageValue (reader : JsonReader) (s : StoredLog) : LogLabelSource → Text
  | .service => s.service.getD []
  | .attribute key =>
      if builtinColumn key then s.service.getD [] else (jsonGetStr reader s.row.attributes key).getD []
  | .resourceAttribute key => (jsonGetStr reader s.resource key).getD []

/-- The value that storage finds for a label; one without a source is empty. -/
def storedLabel (reader : JsonReader) (schema : LogStreamSchema) (s : StoredLog) (name : Text) : Text :=
  match schema.source name with
  | some source => storageValue reader s source
  | none => []

/-- All conditions of a query are TRUE on the row. -/
def LogHolds (reader : JsonReader) (regex : Text → Option (Text → Bool)) (table : CharTable)
    (live : List Text) (s : StoredLog) (q : LogQuery) : Prop :=
  ∀ c ∈ q.conditions live, c.Holds reader regex table (s.cell reader)

theorem log_cell_fixed (reader : JsonReader) (s : StoredLog) {f : Field} (hf : f ∈ fixedFields .logs) {c : Cell}
    (hc : s.row.cells f.name = c) : s.cell reader f.name = c :=
  (cell_fixed s.toSealedRow hf).trans hc

theorem log_service (reader : JsonReader) (s : StoredLog) :
    asText (s.cell reader "service".toList) = s.service := by
  have hcell : s.cell reader "service".toList = promotedCell s.service :=
    log_cell_fixed reader s (service_mem_fixedFields .logs) s.service_eq
  rw [hcell]
  rcases s.service with _ | v <;> rfl

theorem log_mirrors (s : StoredLog) {key : Text} (hkey : key ∈ promotedColumns live) :
    Mirrors reader (s.cell reader) key s.row.attributes := by
  unfold Mirrors SealedRow.cell
  split
  · rw [cellOf_promoted reader s.row hkey, lookupPromoted_eq]
    rcases Core.jsonGetStr reader s.row.attributes key with _ | v
    · exact .inl rfl
    · exact .inr ⟨v, rfl, rfl⟩
  · exact .inl rfl

theorem eval_body (reader : JsonReader) (s : StoredLog) :
    (Operand.column "body".toList).eval reader (s.cell reader) = some s.body := by
  have hcell : s.cell reader "body".toList = .text s.body :=
    log_cell_fixed reader s (show field "body" .utf8 false ∈ fixedFields .logs by decide) s.body_eq
  rw [Operand.eval, hcell]
  rfl

theorem eval_coalesced_body (reader : JsonReader) (s : StoredLog) :
    (Operand.coalesceEmpty (.column "body".toList)).eval reader (s.cell reader) = some s.body := by
  rw [Operand.eval, eval_body]
  rfl

/-- What the condition on a source reads is the value in storage. -/
theorem eval_source (reader : JsonReader) (live : List Text) (s : StoredLog) (source : LogLabelSource) :
    (Operand.coalesceEmpty ((logStringField source).operand live)).eval reader (s.cell reader) =
      some (storageValue reader s source) := by
  rw [Operand.eval]
  congr 1
  rcases source with _ | key | key
  · exact congrArg (fun o => Option.getD o []) (log_service reader s)
  · have hattributes : s.cell reader "attributes".toList = .text s.row.attributes :=
      log_cell_fixed reader s (mem_fixedFields .logs).1 s.row.attributes_eq
    have hfield : TextExpr.eval reader (s.cell reader) (Query.attrField live key) =
        if builtinColumn key then asText (s.cell reader "service".toList)
        else jsonGetStr reader s.row.attributes key :=
      eval_attrField hattributes fun hkey => log_mirrors s hkey
    rw [log_service] at hfield
    refine (congrArg (fun o => Option.getD o []) hfield).trans ?_
    rw [storageValue]
    split <;> rfl
  · have hcell : s.cell reader "resource".toList = .text s.resource :=
      log_cell_fixed reader s (show field "resource" .dictUtf8 false ∈ fixedFields .logs by decide) s.resource_eq
    rw [logStringField, LogStringField.operand, Operand.eval, hcell]
    rfl

theorem logHolds_matchNone {s : StoredLog} {q : LogQuery} :
    ¬ LogHolds reader regex table live s { q with matchNone := true } := by
  intro h
  exact holds_never (h .never (mem_append_left _ (mem_append_left _ mem_cons_self)))

/-- One more predicate is one more condition. -/
theorem logHolds_stringPredicate {s : StoredLog} {q : LogQuery} {field : LogStringField}
    {op : StringPredicate} {value : Text} :
    LogHolds reader regex table live s (q.stringPredicate field op value) ↔
      LogHolds reader regex table live s q ∧
        (LogStringPredicate.condition live ⟨field, op, value⟩).Holds reader regex table (s.cell reader) := by
  have hconds : (q.stringPredicate field op value).conditions live =
      q.conditions live ++ [LogStringPredicate.condition live ⟨field, op, value⟩] := by
    unfold LogQuery.conditions LogQuery.stringPredicate
    rw [map_append]
    exact (append_assoc _ _ _).symm
  unfold LogHolds
  rw [hconds, forall_mem_append, forall_mem_singleton]

/-- The predicate is what the query has more, where it is one condition. -/
theorem predicate_holds {s : StoredLog} {q : LogQuery} {field : LogStringField} {op : StringPredicate}
    {value : Text} {P : Prop}
    (h : (LogStringPredicate.condition live ⟨field, op, value⟩).Holds reader regex table (s.cell reader) ↔ P) :
    (∃ q', (.ok (q.stringPredicate field op value) : Except SemanticError LogQuery) = .ok q' ∧
        LogHolds reader regex table live s q') ↔ LogHolds reader regex table live s q ∧ P := by
  rw [← h, ← logHolds_stringPredicate]
  constructor
  · rintro ⟨q', hq', hholds⟩
    rwa [Except.ok.inj hq']
  · exact fun hholds => ⟨_, rfl, hholds⟩

/-- A label filter is one condition on the value that storage finds; without a source it is decided on the
empty string. -/
theorem applyLabel_holds {s : StoredLog} {q : LogQuery} {filter : LogFilter} {name : Text}
    {op : StringPredicate} {value : Text} {P : Text → Prop}
    (hsource : ∀ source, (LogStringPredicate.condition live ⟨logStringField source, op, value⟩).Holds reader
      regex table (s.cell reader) ↔ P (storageValue reader s source))
    (hconstant : constantLabelMatches regex filter = .ok true ↔ P []) :
    (∃ q', applyLabel regex schema q filter name op value = .ok q' ∧
        LogHolds reader regex table live s q') ↔
      LogHolds reader regex table live s q ∧ P (storedLabel reader schema s name) := by
  unfold applyLabel storedLabel
  rcases schema.source name with _ | source
  · dsimp only
    rw [← hconstant]
    rcases constantLabelMatches regex filter with e | _ | _
    · exact ⟨fun ⟨_, h, _⟩ => (nomatch h), fun h => (nomatch h.2)⟩
    · constructor
      · rintro ⟨q', hq', hholds⟩
        rw [← Except.ok.inj hq'] at hholds
        exact absurd hholds logHolds_matchNone
      · exact fun h => (nomatch h.2)
    · constructor
      · rintro ⟨q', hq', hholds⟩
        obtain rfl : q = q' := Except.ok.inj hq'
        exact ⟨hholds, rfl⟩
      · exact fun h => ⟨q, rfl, h.1⟩
  · exact predicate_holds (hsource source)

theorem constant_regex {name pattern : Text} :
    constantLabelMatches regex (.labelRegex name pattern) = .ok true ↔
      ∃ isMatch, regex (anchored pattern) = some isMatch ∧ isMatch [] = true := by
  rw [constantLabelMatches]
  exact compiled_iff

theorem constant_notRegex {name pattern : Text} :
    constantLabelMatches regex (.labelNotRegex name pattern) = .ok true ↔
      ∃ isMatch, regex (anchored pattern) = some isMatch ∧ isMatch [] = false := by
  rw [constantLabelMatches]
  exact compiled_not_iff

mutual

/-- The conditions of a filter say of the stored values what the filter says. -/
theorem applyLogFilter_holds {s : StoredLog} : ∀ (f : LogFilter) (q : LogQuery),
    (∃ q', applyLogFilter regex schema q f = .ok q' ∧ LogHolds reader regex table live s q') ↔
      LogHolds reader regex table live s q ∧ f.Says regex table (storedLabel reader schema s) s.body
  | .all, q => by
      constructor
      · rintro ⟨q', hq', hholds⟩
        obtain rfl : q = q' := Except.ok.inj hq'
        exact ⟨hholds, trivial⟩
      · exact fun h => ⟨q, rfl, h.1⟩
  | .labelEq _ _, _ =>
      applyLabel_holds (P := fun actual => actual = _) (fun source => holds_eq (eval_source reader live s source))
        (ok_decide.trans eq_comm)
  | .labelNe _ _, _ =>
      applyLabel_holds (P := fun actual => actual ≠ _) (fun source => holds_ne (eval_source reader live s source))
        (ok_decide.trans ne_comm)
  | .labelRegex _ _, _ =>
      applyLabel_holds (P := fun actual => ∃ isMatch, regex _ = some isMatch ∧ isMatch actual = true)
        (fun source => holds_regexpLike (eval_source reader live s source)) constant_regex
  | .labelNotRegex _ _, _ =>
      applyLabel_holds (P := fun actual => ∃ isMatch, regex _ = some isMatch ∧ isMatch actual = false)
        (fun source => holds_not_regexpLike (eval_source reader live s source)) constant_notRegex
  | .lineContains _, _ => predicate_holds (holds_strposPositive (eval_coalesced_body reader s))
  | .lineNotContains _, _ => predicate_holds (holds_strposZero (eval_coalesced_body reader s))
  | .lineRegex _, _ => predicate_holds (holds_regexpLike (eval_coalesced_body reader s))
  | .lineNotRegex _, _ => predicate_holds (holds_not_regexpLike (eval_coalesced_body reader s))
  | .lineMatches _, _ => predicate_holds (holds_matches (eval_body reader s))
  | .lineNotMatches _, _ => predicate_holds (holds_not_matches (eval_body reader s))
  | .and filters, q => applyAll_holds filters q

/-- The query with all filters holds of the rows that held before and have what the filters say. -/
theorem applyAll_holds {s : StoredLog} : ∀ (filters : List LogFilter) (q : LogQuery),
    (∃ q', applyAll regex schema q filters = .ok q' ∧ LogHolds reader regex table live s q') ↔
      LogHolds reader regex table live s q ∧ SaysAll regex table (storedLabel reader schema s) s.body filters
  | [], q => by
      constructor
      · rintro ⟨q', hq', hholds⟩
        obtain rfl : q = q' := Except.ok.inj hq'
        exact ⟨hholds, trivial⟩
      · exact fun h => ⟨q, rfl, h.1⟩
  | f :: filters, q => by
      unfold applyAll SaysAll
      rw [← and_assoc, ← applyLogFilter_holds f q]
      constructor
      · rintro ⟨q', hq', hholds⟩
        obtain ⟨q₁, hq₁, hq'⟩ := bind_eq_ok.mp hq'
        obtain ⟨hholds₁, hsays⟩ := (applyAll_holds filters q₁).mp ⟨q', hq', hholds⟩
        exact ⟨⟨q₁, hq₁, hholds₁⟩, hsays⟩
      · rintro ⟨⟨q₁, hq₁, hholds₁⟩, hsays⟩
        obtain ⟨q', hq', hholds⟩ := (applyAll_holds filters q₁).mpr ⟨hholds₁, hsays⟩
        exact ⟨q', bind_eq_ok.mpr ⟨q₁, hq₁, hq'⟩, hholds⟩

end

/-! ## Where the two sides agree -/

/-- The value that the evaluator finds for a label. -/
def readLabel (reader : JsonReader) (live : List Text) (rows : List SealedRow) (schema : LogStreamSchema)
    (i : ℕ) (name : Text) : Text :=
  ((semanticEntry reader (queryBatch reader live rows) schema i).labels.get name).getD []

variable {rows : List SealedRow} {i : ℕ} {s : StoredLog}

theorem valid_nodup (hschema : validateLogSchema schema = true) : (schema.labels.map Prod.fst).Nodup := by
  unfold validateLogSchema at hschema
  exact of_decide_eq_true (Bool.and_eq_true_iff.mp hschema).2

/-- A name has the source that it is mapped to. -/
theorem source_eq (hschema : validateLogSchema schema = true) {l : Text × LogLabelSource}
    (hl : l ∈ schema.labels) : schema.source l.1 = some l.2 := by
  unfold LogStreamSchema.source
  rcases hfind : schema.labels.find? fun l' => l'.1 = l.1 with _ | l'
  · exact absurd (decide_eq_true rfl) (find?_eq_none.mp hfind l hl)
  · have hname : l'.1 = l.1 := by simpa using find?_some hfind
    rw [hfind, map_some, inj_on_of_nodup_map (valid_nodup hschema) (mem_of_find?_eq_some hfind) hl hname]

/-- The value that is read for a source. -/
theorem readLabel_source (hschema : validateLogSchema schema = true) (hs : rows[i]? = some s.toSealedRow)
    {l : Text × LogLabelSource} (hl : l ∈ schema.labels) :
    readLabel reader live rows schema i l.1 =
      (match l.2 with
        | .service => s.service
        | .attribute key => readAttribute reader live s.toSealedRow key
        | .resourceAttribute key => parsedStr reader s.resource key).getD [] := by
  have hget : (semanticEntry reader (queryBatch reader live rows) schema i).labels.get l.1 =
      readValue (parsedStr reader) (queryBatch reader live rows) i l.2 := by
    rw [semanticEntry, labels_eq, get_new]
    exact lastValue_source (valid_nodup hschema) (mem_collected _ schema i) hl
  rw [readLabel, hget, readValue_queryBatch hs]
  rcases l.2 with _ | key | key
  · congr 1
    unfold storedValue
    dsimp only
    rw [s.service_eq]
    rcases s.service with _ | v <;> rfl
  · rfl
  · dsimp only
    rw [s.resource_eq]
    rfl

/-- A name without a source is read as the empty string, as storage decides it. -/
theorem readLabel_no_source {name : Text} (hname : name ∉ schema.labels.map Prod.fst) :
    readLabel reader live rows schema i name = [] ∧ storedLabel reader schema s name = [] := by
  constructor
  · rw [readLabel, semanticEntry, labels_eq, get_new,
      lastValue_no_source (mem_collected _ schema i) hname]
    rfl
  · have hnone : schema.source name = none := by
      unfold LogStreamSchema.source
      rw [map_eq_none_iff, find?_eq_none]
      intro l hl heq
      exact hname (mem_map.mpr ⟨l, hl, of_decide_eq_true heq⟩)
    rw [storedLabel, hnone]

/-- At a sentinel of its own key nothing is parsed, and elsewhere what is picked. -/
theorem parsed_eq_iff {json key : Text} (hagree : reader.Agree json) :
    (jsonGetStr reader json key).getD [] = (parsedStr reader json key).getD [] ↔
      ¬ SentinelAt reader json key := by
  constructor
  · intro h hsentinel
    obtain ⟨tag, hne, hstr, _⟩ := jsonGetStr_sentinel hagree hsentinel
    have hnone : parsedStr reader json key = none := by
      obtain ⟨_, _, kvs, hdoc, hkvs⟩ := hsentinel
      obtain ⟨d, hd⟩ := isSome_iff_exists.mp hkvs
      unfold parsedStr parse
      rw [hdoc, map_some, ofJson, sentinelOrMap, hd]
    rw [hstr, hnone] at h
    exact hne h
  · intro h
    rw [(parsedStr_eq_iff hagree key).mpr h]

/-- Storage and the evaluator find one value of a label, if and only if its source is kept. -/
theorem storedLabel_eq_iff (hschema : validateLogSchema schema = true) (hs : rows[i]? = some s.toSealedRow)
    (hattributes : reader.Agree s.row.attributes) (hresource : reader.Agree s.resource)
    {l : Text × LogLabelSource} (hl : l ∈ schema.labels) :
    storedLabel reader schema s l.1 = readLabel reader live rows schema i l.1 ↔
      SourceKept reader live s l.2 := by
  rw [readLabel_source hschema hs hl, storedLabel, source_eq hschema hl]
  dsimp only
  rcases l.2 with _ | key | key
  · exact iff_of_true rfl trivial
  · dsimp only [storageValue, SourceKept]
    by_cases hbuiltin : builtinColumn key
    · rw [if_pos hbuiltin, if_pos hbuiltin]
      exact eq_comm
    · rw [if_neg hbuiltin, if_neg hbuiltin, readAttribute]
      by_cases hlive : key ∈ promotedColumns live
      · rw [if_pos hlive, if_pos hlive]
        by_cases hsealed : key ∈ promotedColumns s.promote
        · rw [if_pos hsealed]
          exact iff_of_true rfl (.inl hsealed)
        · rw [if_neg hsealed]
          exact ⟨.inr, fun h => h.resolve_left hsealed⟩
      · rw [if_neg hlive, if_neg hlive]
        exact parsed_eq_iff hattributes
  · exact parsed_eq_iff hresource

/-! ## Requests -/

/-- Before its filter a query of a row's instant selects the row. -/
theorem boundedLogQuery_holds {request : LogFetchRequest}
    (hbounds : request.bounds.contains s.row.time = true) :
    LogHolds reader regex table live s (boundedLogQuery request) := by
  have hcell : s.cell reader "time".toList = .time s.row.time :=
    log_cell_fixed reader s (mem_fixedFields .logs).2 s.row.time_eq
  obtain ⟨hstart, hstop⟩ := Bool.and_eq_true_iff.mp hbounds
  have hconds : (boundedLogQuery request).conditions live =
      rangeConditions ⟨request.bounds.startNs, request.bounds.endNs⟩ true :=
    (append_nil _).trans (flatMap_singleton _ _)
  unfold LogHolds
  rw [hconds]
  intro c hc
  exact holds_range hcell (of_decide_eq_true hstart) (of_decide_eq_true hstop) hc

/-- A query selects a row, if and only if its filter says so of the stored values. -/
theorem logSelected_iff (hschema : validateLogSchema schema = true) {request : LogFetchRequest}
    (hbounds : request.bounds.contains s.row.time = true) :
    LogSelected reader regex table live schema request (s.cell reader) ↔
      request.filter.Says regex table (storedLabel reader schema s) s.body := by
  have hbounded : LogHolds reader regex table live s (boundedLogQuery request) :=
    boundedLogQuery_holds hbounds
  rw [LogSelected, buildLogQuery, if_pos hschema]
  refine Iff.trans ?_ ((applyLogFilter_holds request.filter _).trans (and_iff_right hbounded))
  exact exists_congr fun q => and_congr_right fun _ => evalWhere_true

/-- The line of an entry is the body of its row. -/
theorem readLine (hs : rows[i]? = some s.toSealedRow) :
    (semanticEntry reader (queryBatch reader live rows) schema i).line = s.body := by
  have hfield : (tableSchemaFor .logs live)[5]? = some (field "body" .utf8 false) := rfl
  have hcell : s.cell reader "body".toList = .text s.body :=
    log_cell_fixed reader s (mem_of_getElem? (i := 5) rfl) s.body_eq
  rw [semanticEntry]
  dsimp only
  rw [columnAt_queryBatch hfield, colStr_map hs]
  have hbody : s.cell reader (field "body" .utf8 false).name = .text s.body := hcell
  rw [hbody]
  rfl

mutual

/-- A filter says one thing of two labellings that agree on the names it has. -/
theorem says_congr {label label' : Text → Text} {line : Text} : ∀ f : LogFilter,
    (∀ name ∈ f.labelNames, label name = label' name) →
      (f.Says regex table label line ↔ f.Says regex table label' line)
  | .all, _ => Iff.rfl
  | .labelEq name value, h => by
      rw [LogFilter.Says, LogFilter.Says, h name mem_cons_self]
  | .labelNe name value, h => by
      rw [LogFilter.Says, LogFilter.Says, h name mem_cons_self]
  | .labelRegex name pattern, h => by
      rw [LogFilter.Says, LogFilter.Says, h name mem_cons_self]
  | .labelNotRegex name pattern, h => by
      rw [LogFilter.Says, LogFilter.Says, h name mem_cons_self]
  | .lineContains _, _ => Iff.rfl
  | .lineNotContains _, _ => Iff.rfl
  | .lineRegex _, _ => Iff.rfl
  | .lineNotRegex _, _ => Iff.rfl
  | .lineMatches _, _ => Iff.rfl
  | .lineNotMatches _, _ => Iff.rfl
  | .and filters, h => by
      rw [LogFilter.Says, LogFilter.Says]
      exact saysAll_congr filters h

theorem saysAll_congr {label label' : Text → Text} {line : Text} : ∀ filters : List LogFilter,
    (∀ name ∈ labelNamesAll filters, label name = label' name) →
      (SaysAll regex table label line filters ↔ SaysAll regex table label' line filters)
  | [], _ => Iff.rfl
  | f :: filters, h => by
      rw [SaysAll, SaysAll,
        says_congr f fun name hname => h name (mem_append_left _ hname),
        saysAll_congr filters fun name hname => h name (mem_append_right _ hname)]

end

/-- The query of a request selects a row exactly when the filter matches its entry, for every request of
the row's instant whose filter has no other labels than the given ones, if and only if the source of each
of these labels is kept. -/
theorem filter_pushdown_iff (reader : JsonReader) (regex : Text → Option (Text → Bool)) (table : CharTable)
    (live : List Text) (rows : List SealedRow) (schema : LogStreamSchema)
    (hschema : validateLogSchema schema = true) {i : ℕ} {s : StoredLog} (hs : rows[i]? = some s.toSealedRow)
    (hattributes : reader.Agree s.row.attributes) (hresource : reader.Agree s.resource)
    (names : List Text) :
    (∀ request : LogFetchRequest, request.bounds.contains s.row.time = true →
        (∀ name ∈ request.filter.labelNames, name ∈ names) →
        (LogSelected reader regex table live schema request (s.cell reader) ↔
          request.filter.matches regex table
            (semanticEntry reader (queryBatch reader live rows) schema i) = .ok true)) ↔
      ∀ l ∈ schema.labels, l.1 ∈ names → SourceKept reader live s l.2 := by
  have hmatches : ∀ f : LogFilter, f.matches regex table
      (semanticEntry reader (queryBatch reader live rows) schema i) = .ok true ↔
        f.Says regex table (readLabel reader live rows schema i) s.body := by
    intro f
    rw [filter_matches_iff, readLine hs]
    rfl
  constructor
  · intro h l hl hname
    rw [← storedLabel_eq_iff hschema hs hattributes hresource hl]
    have hbounds : (FetchBounds.mk s.row.time s.row.time).contains s.row.time = true :=
      Bool.and_eq_true_iff.mpr ⟨decide_eq_true le_rfl, decide_eq_true le_rfl⟩
    -- a request for the value that storage finds
    have hexact := h ⟨⟨s.row.time, s.row.time⟩, .labelEq l.1 (storedLabel reader schema s l.1), 0⟩ hbounds
      (forall_mem_singleton.mpr hname)
    rw [hmatches] at hexact
    have hselected : LogSelected reader regex table live schema
        ⟨⟨s.row.time, s.row.time⟩, .labelEq l.1 (storedLabel reader schema s l.1), 0⟩ (s.cell reader) :=
      (logSelected_iff hschema hbounds).mpr rfl
    exact (hexact.mp hselected).symm
  · intro h request hbounds hnames
    rw [logSelected_iff hschema hbounds, hmatches]
    apply says_congr
    intro name hname
    by_cases hsource : name ∈ schema.labels.map Prod.fst
    · obtain ⟨l, hl, rfl⟩ := mem_map.mp hsource
      exact (storedLabel_eq_iff hschema hs hattributes hresource hl).mpr (h l hl (hnames _ hname))
    · obtain ⟨hread, hstored⟩ := readLabel_no_source hsource
      rw [hread, hstored]

end

/-! ## A row of a service -/

/-- A log row of the service `cart`, whose route is `/cart`. -/
def cartLog : StoredLog where
  promote := []
  row :=
    { cells := fun c =>
        if c = "attributes".toList then .text "\x7b\"route\":\"/cart\"\x7d".toList
        else if c = "time".toList then .time 7
        else if c = "body".toList then .text "checkout".toList
        else if c = "service".toList then .text "cart".toList
        else if c = "resource".toList then .text "\x7b\"route\":\"/cart\"\x7d".toList else .other 0
      attributes := "\x7b\"route\":\"/cart\"\x7d".toList
      time := 7
      attributes_eq := if_pos rfl
      time_eq := rfl
      not_null := by
        intro f _ _
        split
        · simp
        · split
          · simp
          · split
            · simp
            · split
              · simp
              · split <;> simp }
  body := "checkout".toList
  service := some "cart".toList
  resource := "\x7b\"route\":\"/cart\"\x7d".toList
  body_eq := rfl
  service_eq := rfl
  resource_eq := rfl

/-- Streams by the attributes `route` and `service.name`. -/
def attributeStreams : LogStreamSchema where
  labels := [("route".toList, .attribute "route".toList), ("svc".toList, .attribute "service.name".toList)]

/-- Storage selects the row by an attribute `service.name` that it does not have. -/
theorem missing_attribute_selected :
    let filter : LogFilter := .labelEq "svc".toList "cart".toList
    LogSelected cartReader (fun _ => none) Traces.noEngine.table [] attributeStreams ⟨⟨0, 10⟩, filter, 10⟩
        (cartLog.cell cartReader) ∧
      filter.matches (fun _ => none) Traces.noEngine.table
        (semanticEntry cartReader (queryBatch cartReader [] [cartLog.toSealedRow]) attributeStreams 0) =
          .ok false := by
  intro filter
  constructor
  · exact (logSelected_iff (by decide) (by decide)).mpr rfl
  · have hread : ((semanticEntry cartReader (queryBatch cartReader [] [cartLog.toSealedRow])
        attributeStreams 0).labels.get "svc".toList).getD [] = [] := by decide +kernel
    rw [LogFilter.matches, hread]
    rfl

/-- By its route the row is selected as the filter matches. -/
theorem filter_pushdown_route :
    let filter : LogFilter := .labelEq "route".toList "/cart".toList
    LogSelected cartReader (fun _ => none) Traces.noEngine.table [] attributeStreams ⟨⟨0, 10⟩, filter, 10⟩
        (cartLog.cell cartReader) ↔
      filter.matches (fun _ => none) Traces.noEngine.table
        (semanticEntry cartReader (queryBatch cartReader [] [cartLog.toSealedRow]) attributeStreams 0) = .ok true := by
  intro filter
  refine (filter_pushdown_iff cartReader (fun _ => none) Traces.noEngine.table [] [cartLog.toSealedRow]
    attributeStreams (by decide) rfl (cartReader_agree _) (cartReader_agree _)
    ["route".toList, "unmapped".toList]).mpr ?_ ⟨⟨0, 10⟩, filter, 10⟩ rfl
    (forall_mem_singleton.mpr mem_cons_self)
  intro l hl hname
  rcases mem_cons.mp hl with rfl | hl
  · unfold SourceKept
    dsimp only
    rw [if_neg (by decide), if_neg (by decide)]
    intro h
    exact absurd h.1 (by decide)
  · rw [mem_singleton.mp hl] at hname
    exact absurd hname (by decide)

end Imbh.Lgtm
