import Imbh.Lgtm.MetricSource
import Imbh.Query.Conditions

/-!
# Matchers of a metric in SQL

A fetch of metric points becomes one query for each table, with the matchers as its conditions. Storage
finds the value of a label in the service column, in a promoted column or in the JSON; the evaluator finds
it in the label set of the point, where a string attribute replaces a column of its name.

* `pushdown_exact_iff` — the queries select a point when its labels match, for every list of matchers, if
  and only if no attribute of the point replaces or misses what storage finds.
-/

namespace Imbh.Lgtm

open Lib Imbh.Core Storage Segments Query List Option
open Traces (builtinColumn TimeRange)

/-! ## Queries -/

/-- Source: `metrics.rs` `LabelOp` -/
inductive LabelOp
  | eq
  | ne
  | regex
  | notRegex
  deriving DecidableEq

/-- Source: `metrics.rs` `label_cond` -/
def labelCond (promoted : List Text) (key : Text) (op : LabelOp) (value : Text) : Condition :=
  let actual := .coalesceEmpty (.attribute (Query.attrField promoted key))
  match op with
  | .eq => .eq actual value
  | .ne => .ne actual value
  | .regex => .regexpLike actual value
  | .notRegex => .not (.regexpLike actual value)

/-- Source: `metrics.rs` `MetricPointsQuery` -/
structure MetricPointsQuery where
  table : Table
  metric : Text
  filters : List (Text × LabelOp × Text)
  matchNone : Bool
  range : Option TimeRange
  rangeEndInclusive : Bool
  limit : ℕ

/-- Source: `metrics.rs` `MetricPointsQuery::new` -/
def MetricPointsQuery.new (table : Table) (metric : Text) : MetricPointsQuery where
  table := table
  metric := metric
  filters := []
  matchNone := false
  range := none
  rangeEndInclusive := false
  limit := 100

/-- Source: `metrics.rs` `MetricPointsQuery::filter`, `filter_ne`, `filter_regex`, `filter_not_regex` -/
def MetricPointsQuery.filter (q : MetricPointsQuery) (key : Text) (op : LabelOp) (value : Text) :
    MetricPointsQuery :=
  { q with filters := q.filters ++ [(key, op, value)] }

/-- The conditions of the statement. Source: `metrics.rs` `MetricPointsQuery::to_sql` -/
def MetricPointsQuery.conditions (promoted : List Text) (q : MetricPointsQuery) : List Condition :=
  [.eq (.column "metric".toList) q.metric] ++ (if q.matchNone then [.never] else []) ++
    (q.range.toList.flatMap fun r => rangeConditions r q.rangeEndInclusive) ++
    q.filters.map fun f => labelCond promoted f.1 f.2.1 f.2.2

section

variable (regex : Text → Option (Text → Bool))

/-- Source: `source.rs` `exact_metric_name` -/
def exactMetricName (matchers : List LabelMatcher) : Except SemanticError Text :=
  match matchers.find? fun m => m.name = "__name__".toList ∧ m.op = .eq with
  | some m =>
      if m.value = [] then .error (.incompatible "IMBH source requires an exact non-empty metric name".toList)
      else return m.value
  | none => .error (.incompatible "IMBH source requires an exact non-empty metric name".toList)

/-- Source: `source.rs` `metric_name_matches` -/
def metricNameMatches (metric : Text) (matcher : LabelMatcher) : Except SemanticError Bool :=
  match matcher.op with
  | .eq => .ok (metric = matcher.value)
  | .ne => .ok (metric ≠ matcher.value)
  | .regex | .notRegex =>
      match regex (anchored matcher.value) with
      | none => .error (.malformed "invalid PromQL metric-name regex".toList)
      | some isMatch => .ok (if matcher.op = .regex then isMatch metric else !isMatch metric)

/-- The query with one more matcher. Source: `source.rs` `build_metric_point_queries`, the loop body -/
def addMatcher (metric : Text) (q : MetricPointsQuery) (m : LabelMatcher) :
    Except SemanticError MetricPointsQuery :=
  if m.name = "__name__".toList then do
    if ← metricNameMatches regex metric m then return q else return { q with matchNone := true }
  else
    return match m.op with
    | .eq => q.filter m.name .eq m.value
    | .ne => q.filter m.name .ne m.value
    | .regex => q.filter m.name .regex (anchored m.value)
    | .notRegex => q.filter m.name .notRegex (anchored m.value)

/-- The tables that a purpose reads. Source: `source.rs` `build_metric_point_queries` -/
def PromFetchPurpose.tables : PromFetchPurpose → List Table
  | .instantSelector => [.metricsGauge, .metricsSum]
  | .cumulativeCounterRate => [.metricsSum]
  | .cumulativeHistogramRate => [.metricsHistogram]

/-- The query before its matchers. Source: `source.rs` `build_metric_point_queries` -/
def boundedQuery (request : PromFetchRequest) (metric : Text) (t : Table) : MetricPointsQuery :=
  { MetricPointsQuery.new t metric with
    range := some ⟨request.bounds.startNs, request.bounds.endNs⟩
    rangeEndInclusive := true
    limit := min (request.maxSamples + 1) (2 ^ 64 - 1) }

/-- Source: `source.rs` `build_metric_point_queries` -/
def buildMetricPointQueries (request : PromFetchRequest) : Except SemanticError (List MetricPointsQuery) := do
  let metric ← exactMetricName request.matchers
  request.purpose.tables.mapM fun t =>
    request.matchers.foldlM (addMatcher regex metric) (boundedQuery request metric t)

end

/-! ## Points -/

/-- A stored row of a metric table, with the keys that were promoted when its segment was written. -/
structure StoredPoint (t : Table) where
  promote : List Text
  row : StoredRow t
  metric : Text
  service : Option Text
  metric_eq : row.cells "metric".toList = .text metric
  service_eq : row.cells "service".toList = promotedCell service

section

variable (reader : JsonReader)

/-- The cell of a point in a query: that of its segment, or a null.
Source: imbh-query `lib.rs` `coerce` -/
def StoredPoint.cell {t : Table} (s : StoredPoint t) (name : Text) : Cell :=
  if name ∈ (tableSchemaFor t s.promote).map Field.name then cellOf reader s.row name else .null

/-- The string members of a text, parsed. -/
def parsedStrings (attributes : Text) : List (Text × Text) :=
  match parse reader attributes with
  | some (.map fields) => fields.filterMap stringPair
  | _ => []

/-- The labels of a row. Source: `source.rs` `metric_labels_from_batch` -/
def metricLabelsFromBatch (row : Text → Cell) : LabelSet :=
  .new <| ((asText (row "service".toList)).toList.map fun s => ("service".toList, s)) ++
    ((asText (row "metric".toList)).toList.map fun s => ("__name__".toList, s)) ++
    (asText (row "attributes".toList)).toList.flatMap (parsedStrings reader)

/-- One of the queries of a request selects the row. -/
def Selected (regex : Text → Option (Text → Bool)) (table : CharTable) (promoted : List Text)
    (request : PromFetchRequest) (t : Table) (row : Text → Cell) : Prop :=
  ∃ queries, buildMetricPointQueries regex request = .ok queries ∧ ∃ q ∈ queries, q.table = t ∧
    evalWhere reader regex table row (q.conditions promoted) = .ok (some true)

/-- Every matcher holds on the labels of the row. -/
def LabelsMatch (regex : Text → Option (Text → Bool)) (matchers : List LabelMatcher) (row : Text → Cell) :
    Prop :=
  ∀ m ∈ matchers, m.matches regex (metricLabelsFromBatch reader row) = .ok true

/-! ## What the two sides find -/

/-- The string attribute that becomes a label. -/
def attributeLabel (attributes key : Text) : Option Text := lastValue (parsedStrings reader attributes) key

/-- The members of a document. -/
def documentMembers (attributes : Text) : List (Text × AnyValue) :=
  match reader.document attributes with
  | some (.map ms) => ofJsonMembers ms
  | _ => []

/-- No attribute replaces the metric's name. -/
def NameKept {t : Table} (s : StoredPoint t) : Prop :=
  ∀ v, attributeLabel reader s.row.attributes "__name__".toList = some v → v = s.metric

/-- The attributes give a label the value that storage finds: no attribute replaces the service, the label
`service.name` is the service, and elsewhere the text is no sentinel of its own key and the first value of
the key is its last string, where a missing or another value counts as the empty string. -/
def LabelKept {t : Table} (s : StoredPoint t) (key : Text) : Prop :=
  if key = "service".toList then
    ∀ v, attributeLabel reader s.row.attributes key = some v → v = s.service.getD []
  else if key = "service.name".toList then
    (attributeLabel reader s.row.attributes key).getD [] = s.service.getD []
  else
    ¬ SentinelAt reader s.row.attributes key ∧
      ((getAttr (documentMembers reader s.row.attributes) key).bind AnyValue.asStr).getD [] =
        (lastValue ((documentMembers reader s.row.attributes).filterMap stringPair) key).getD []

end

section

variable {reader : JsonReader} {t : Table}

/-- A built-in column has the row's own cell. -/
theorem StoredPoint.cell_fixed (reader : JsonReader) (s : StoredPoint t) {f : Field} (hf : f ∈ fixedFields t) :
    s.cell reader f.name = s.row.cells f.name := by
  have hmem : f.name ∈ (tableSchemaFor t s.promote).map Field.name :=
    mem_map_of_mem (mem_append_left _ hf)
  rw [StoredPoint.cell, if_pos hmem, cellOf_fixed reader _ hf]

theorem asText_service (s : StoredPoint t) : asText (s.cell reader "service".toList) = s.service := by
  have hcell : s.cell reader "service".toList = promotedCell s.service :=
    (s.cell_fixed reader (service_mem_fixedFields t)).trans s.service_eq
  rw [hcell]
  rcases s.service with _ | v <;> rfl

theorem cell_metric (s : StoredPoint t) (ht : field "metric" .utf8 false ∈ fixedFields t) :
    s.cell reader "metric".toList = .text s.metric :=
  (s.cell_fixed reader ht).trans s.metric_eq

theorem cell_attributes (s : StoredPoint t) :
    s.cell reader "attributes".toList = .text s.row.attributes :=
  (s.cell_fixed reader (mem_fixedFields t).1).trans s.row.attributes_eq

/-- A promoted column has the string of the attribute, or a null. -/
theorem StoredPoint.mirrors (s : StoredPoint t) {promoted : List Text} {key : Text}
    (hkey : key ∈ promotedColumns promoted) :
    Mirrors reader (s.cell reader) key s.row.attributes := by
  unfold Mirrors StoredPoint.cell
  split
  · rw [cellOf_promoted reader s.row hkey, lookupPromoted_eq]
    rcases Core.jsonGetStr reader s.row.attributes key with _ | v
    · exact .inl rfl
    · exact .inr ⟨v, rfl, rfl⟩
  · exact .inl rfl

/-- The value that storage finds for a label. -/
def storageLabel (reader : JsonReader) (s : StoredPoint t) (key : Text) : Text :=
  if builtinColumn key then s.service.getD [] else (jsonGetStr reader s.row.attributes key).getD []

theorem eval_label (reader : JsonReader) (s : StoredPoint t) (promoted : List Text) (key : Text) :
    (Operand.coalesceEmpty (.attribute (Query.attrField promoted key))).eval reader (s.cell reader) =
      some (storageLabel reader s key) := by
  have hfield : TextExpr.eval reader (s.cell reader) (Query.attrField promoted key) =
      if builtinColumn key then asText (s.cell reader "service".toList)
      else jsonGetStr reader s.row.attributes key :=
    eval_attrField (cell_attributes s) fun hkey => s.mirrors hkey
  rw [Operand.eval, Operand.eval, hfield, asText_service, storageLabel]
  split <;> rfl

/-- A label has the value of its last pair. -/
theorem get_new (labels : List (Text × Text)) (name : Text) :
    (LabelSet.new labels).get name = lastValue labels name := by
  refine Eq.trans ?_ (find?_ofPairs labels name)
  unfold LabelSet.get LabelSet.new
  congr!

/-- The value that the evaluator finds for a label. -/
theorem get_metricLabels (s : StoredPoint t) (ht : field "metric" .utf8 false ∈ fixedFields t) (key : Text) :
    (metricLabelsFromBatch reader (s.cell reader)).get key =
      (attributeLabel reader s.row.attributes key).or
        (if key = "__name__".toList then some s.metric
        else if key = "service".toList then s.service else none) := by
  unfold metricLabelsFromBatch
  rw [get_new, lastValue_append, lastValue_append, cell_attributes, cell_metric s ht, asText_service]
  congr 1
  · exact congrArg (fun l => lastValue l key) (flatMap_singleton _ _)
  · by_cases hname : key = "__name__".toList
    · rw [if_pos hname, hname]
      rfl
    · have hmetric : lastValue [("__name__".toList, s.metric)] key = none := by
        by_contra hne
        obtain ⟨kv, hkv, rfl⟩ := mem_map.mp (lastValue_ne_none.mp hne)
        exact hname (congrArg Prod.fst (mem_singleton.mp hkv))
      rw [if_neg hname]
      refine (congrArg (fun o => Option.or o _) hmetric).trans ?_
      rw [none_or]
      by_cases hservice : key = "service".toList
      · rw [if_pos hservice, hservice]
        rcases s.service with _ | v <;> rfl
      · rw [if_neg hservice]
        by_contra hne
        obtain ⟨kv, hkv, rfl⟩ := mem_map.mp (lastValue_ne_none.mp hne)
        obtain ⟨v, _, rfl⟩ := mem_map.mp hkv
        exact hservice rfl

/-! ## Where the two sides agree -/

theorem sentinel_tag {kvs : List (Text × AnyValue)} (h : (sentinelOf kvs).isSome) :
    ∃ tag, kvs = [("$f".toList, .str tag)] ∧ tag ≠ [] := by
  obtain ⟨tag, rfl⟩ := sentinelOf_isSome h
  refine ⟨tag, rfl, ?_⟩
  rintro rfl
  exact absurd h (by decide)

/-- A text that is no sentinel, or of another key, has in its members what is parsed. -/
theorem attributeLabel_eq (reader : JsonReader) (attributes key : Text) :
    (parsedStr reader attributes key = (getAttr (documentMembers reader attributes) key).bind AnyValue.asStr ∧
      attributeLabel reader attributes key =
        lastValue ((documentMembers reader attributes).filterMap stringPair) key) ∨
    (parsedStr reader attributes key = none ∧ attributeLabel reader attributes key = none ∧
      ∃ tag, tag ≠ [] ∧ documentMembers reader attributes = [("$f".toList, .str tag)]) := by
  unfold parsedStr attributeLabel parsedStrings documentMembers parse
  rcases reader.document attributes with _ | j
  · exact .inl ⟨rfl, rfl⟩
  · rcases j with _ | _ | _ | v | _ | _ | _ | ms
    · exact .inl ⟨rfl, rfl⟩
    · exact .inl ⟨rfl, rfl⟩
    · exact .inl ⟨rfl, rfl⟩
    · rw [map_some, ofJson]
      by_cases hv : v.toNat < 2 ^ 63
      · rw [if_pos hv]
        exact .inl ⟨rfl, rfl⟩
      · rw [if_neg hv]
        exact .inl ⟨rfl, rfl⟩
    · exact .inl ⟨rfl, rfl⟩
    · exact .inl ⟨rfl, rfl⟩
    · exact .inl ⟨rfl, rfl⟩
    · rw [map_some, ofJson, sentinelOrMap]
      rcases hsentinel : sentinelOf (ofJsonMembers ms) with _ | d
      · exact .inl ⟨rfl, rfl⟩
      · obtain ⟨tag, htag, hne⟩ := sentinel_tag (hsentinel ▸ rfl : (sentinelOf (ofJsonMembers ms)).isSome)
        exact .inr ⟨rfl, rfl, tag, hne, htag⟩

/-- At a sentinel of its own key storage finds a tag. -/
theorem jsonGetStr_sentinel {attributes key : Text} (hagree : reader.Agree attributes)
    (h : SentinelAt reader attributes key) :
    ∃ tag, tag ≠ [] ∧ jsonGetStr reader attributes key = some tag ∧
      attributeLabel reader attributes key = none := by
  obtain ⟨rfl, hmembers, kvs, hdoc, hsentinel⟩ := h
  obtain ⟨tag, htag, hne⟩ := sentinel_tag hsentinel
  obtain ⟨ms, hms⟩ := isSome_iff_exists.mp hmembers
  obtain ⟨kvs', hdoc', rfl⟩ := hagree ms hms
  obtain rfl : kvs = kvs' := Json.map.inj (some.inj (hdoc.symm.trans hdoc'))
  refine ⟨tag, hne, ?_, ?_⟩
  · have hget : jsonGet reader attributes "$f".toList = getAttr (ofJsonMembers kvs) "$f".toList := by
      rw [jsonGet, pickField, hms, getAttr_ofJsonMembers]
      dsimp only
      rw [find?_members]
      rcases hfind : kvs.find? fun kv => kv.1 = "$f".toList with _ | kv <;> rw [hfind] <;> rfl
    rw [jsonGetStr, hget, htag]
    rfl
  · unfold attributeLabel parsedStrings parse
    obtain ⟨d, hd⟩ := isSome_iff_exists.mp hsentinel
    rw [hdoc, map_some, ofJson, sentinelOrMap, hd]
    rfl

/-- A key that names no column has one value on both sides, if and only if its label is kept. -/
theorem plain_eq_iff {attributes key : Text} (hagree : reader.Agree attributes) :
    (jsonGetStr reader attributes key).getD [] = (attributeLabel reader attributes key).getD [] ↔
      ¬ SentinelAt reader attributes key ∧
        ((getAttr (documentMembers reader attributes) key).bind AnyValue.asStr).getD [] =
          (lastValue ((documentMembers reader attributes).filterMap stringPair) key).getD [] := by
  by_cases hsentinel : SentinelAt reader attributes key
  · obtain ⟨tag, hne, hstr, hlabel⟩ := jsonGetStr_sentinel hagree hsentinel
    rw [hstr, hlabel]
    exact ⟨fun h => absurd h hne, fun h => absurd hsentinel h.1⟩
  · rw [← (parsedStr_eq_iff hagree key).mpr hsentinel]
    rcases attributeLabel_eq reader attributes key with
      ⟨hparsed, hlabel⟩ | ⟨hparsed, hlabel, tag, -, hmembers⟩
    · rw [hparsed, hlabel]
      exact ⟨fun h => ⟨hsentinel, h⟩, fun h => h.2⟩
    · rw [hparsed, hlabel, hmembers]
      refine ⟨fun _ => ⟨hsentinel, ?_⟩, fun _ => rfl⟩
      -- one member is both the first and the last of its key
      by_cases hkey : "$f".toList = key
      · rw [← hkey]
        rfl
      · have hlast : lastValue [("$f".toList, tag)] key = none := by
          by_contra hne
          obtain ⟨kv, hkv, rfl⟩ := mem_map.mp (lastValue_ne_none.mp hne)
          exact hkey (congrArg Prod.fst (mem_singleton.mp hkv)).symm
        have hfirst : getAttr [("$f".toList, AnyValue.str tag)] key = none := by
          rw [getAttr, find?_cons_of_neg (by simpa using hkey)]
          rfl
        rw [hfirst]
        exact (congrArg (fun o => Option.getD o []) hlast).symm

/-- Storage and the evaluator find one value for a label, if and only if it is kept. -/
theorem storageLabel_eq_iff (s : StoredPoint t) (hagree : reader.Agree s.row.attributes)
    (ht : field "metric" .utf8 false ∈ fixedFields t) {key : Text} (hkey : key ≠ "__name__".toList) :
    storageLabel reader s key = ((metricLabelsFromBatch reader (s.cell reader)).get key).getD [] ↔
      LabelKept reader s key := by
  rw [get_metricLabels s ht, if_neg hkey, storageLabel, LabelKept]
  by_cases hservice : key = "service".toList
  · rw [if_pos (by rw [hservice]; rfl), if_pos hservice, if_pos hservice]
    rcases attributeLabel reader s.row.attributes key with _ | v
    · exact ⟨fun _ v h => (nomatch h), fun _ => rfl⟩
    · exact ⟨fun h w hw => by rw [← some.inj hw]; exact h.symm, fun h => (h v rfl).symm⟩
  · rw [if_neg hservice, if_neg hservice, or_none]
    by_cases hname : key = "service.name".toList
    · rw [if_pos (by rw [hname]; rfl), if_pos hname]
      exact eq_comm
    · have hbuiltin : builtinColumn key = false := by
        apply decide_eq_false
        rintro (h | h)
        · exact hservice h
        · exact hname h
      rw [if_neg (by rw [hbuiltin]; exact Bool.false_ne_true), if_neg hname]
      exact plain_eq_iff hagree

/-! ## Matchers -/

variable {regex : Text → Option (Text → Bool)} {table : CharTable} {promoted : List Text} {s : StoredPoint t}
  {matchers : List LabelMatcher} {metric : Text} {q : MetricPointsQuery}

/-- The operator holds between a value and what is found. -/
def MatchOp.Holds (regex : Text → Option (Text → Bool)) (value actual : Text) : MatchOp → Prop
  | .eq => actual = value
  | .ne => actual ≠ value
  | .regex => ∃ isMatch, regex (anchored value) = some isMatch ∧ isMatch actual = true
  | .notRegex => ∃ isMatch, regex (anchored value) = some isMatch ∧ isMatch actual = false

theorem ok_decide {p : Prop} [Decidable p] :
    (.ok (decide p) : Except SemanticError Bool) = .ok true ↔ p := by
  constructor
  · intro h
    exact of_decide_eq_true (Except.ok.inj h)
  · intro h
    rw [decide_eq_true h]

/-- A regex that compiles answers, and one that does not is an error. -/
theorem compiled_iff {compiled : Option (Text → Bool)} {e : SemanticError} {answer : (Text → Bool) → Bool} {b : Bool} :
    (match compiled with
      | none => .error e
      | some isMatch => .ok (answer isMatch) : Except SemanticError Bool) = .ok b ↔
      ∃ isMatch, compiled = some isMatch ∧ answer isMatch = b := by
  rcases compiled with _ | isMatch
  · exact ⟨fun h => (nomatch h), fun ⟨_, h, _⟩ => (nomatch h)⟩
  · constructor
    · exact fun h => ⟨isMatch, rfl, Except.ok.inj h⟩
    · rintro ⟨_, h, hs⟩
      obtain rfl := some.inj h
      exact congrArg Except.ok hs

/-- The negated answer. -/
theorem compiled_not_iff {compiled : Option (Text → Bool)} {e : SemanticError} {answer : (Text → Bool) → Bool} :
    (match compiled with
      | none => .error e
      | some isMatch => .ok (!answer isMatch) : Except SemanticError Bool) = .ok true ↔
      ∃ isMatch, compiled = some isMatch ∧ answer isMatch = false :=
  compiled_iff.trans (exists_congr fun _ => and_congr_right fun _ => iff_of_eq (Bool.not_eq_true' _))

theorem matches_iff {m : LabelMatcher} {labels : LabelSet} :
    m.matches regex labels = .ok true ↔ m.op.Holds regex m.value ((labels.get m.name).getD []) := by
  unfold LabelMatcher.matches MatchOp.Holds
  rcases hop : m.op
  · exact ok_decide
  · exact ok_decide
  · exact compiled_iff
  · exact compiled_not_iff

theorem metricNameMatches_iff {m : LabelMatcher} :
    metricNameMatches regex metric m = .ok true ↔ m.op.Holds regex m.value metric := by
  unfold metricNameMatches MatchOp.Holds
  rcases hop : m.op
  · exact ok_decide
  · exact ok_decide
  · exact compiled_iff
  · exact compiled_not_iff

/-- What a matcher asks of the row of a metric. -/
def MatcherHolds (reader : JsonReader) (regex : Text → Option (Text → Bool)) (metric : Text)
    (s : StoredPoint t) (m : LabelMatcher) : Prop :=
  m.op.Holds regex m.value (if m.name = "__name__".toList then metric else storageLabel reader s m.name)

/-- All conditions of a query are TRUE on the row. -/
def QueryHolds (reader : JsonReader) (regex : Text → Option (Text → Bool)) (table : CharTable)
    (promoted : List Text) (s : StoredPoint t) (q : MetricPointsQuery) : Prop :=
  ∀ c ∈ q.conditions promoted, c.Holds reader regex table (s.cell reader)

theorem queryHolds_matchNone : ¬ QueryHolds reader regex table promoted s { q with matchNone := true } := by
  intro h
  exact holds_never (h .never (by simp [MetricPointsQuery.conditions]))

/-- One more filter is one more condition. -/
theorem queryHolds_filter {key : Text} {op : LabelOp} {value : Text} :
    QueryHolds reader regex table promoted s (q.filter key op value) ↔
      QueryHolds reader regex table promoted s q ∧
        (labelCond promoted key op value).Holds reader regex table (s.cell reader) := by
  have hconds : (q.filter key op value).conditions promoted =
      q.conditions promoted ++ [labelCond promoted key op value] := by
    unfold MetricPointsQuery.conditions MetricPointsQuery.filter
    rw [map_append]
    exact (append_assoc _ _ _).symm
  unfold QueryHolds
  rw [hconds, forall_mem_append, forall_mem_singleton]

/-- One more matcher is one more condition; a pattern of the metric's name that is none fails. -/
theorem addMatcher_holds (reader : JsonReader) (regex : Text → Option (Text → Bool)) (table : CharTable)
    (promoted : List Text) (s : StoredPoint t) (q : MetricPointsQuery) (metric : Text) (m : LabelMatcher) :
    (∃ e, addMatcher regex metric q m = .error e ∧ ¬ MatcherHolds reader regex metric s m) ∨
      ∃ q', addMatcher regex metric q m = .ok q' ∧ q'.table = q.table ∧
        (QueryHolds reader regex table promoted s q' ↔
          QueryHolds reader regex table promoted s q ∧ MatcherHolds reader regex metric s m) := by
  unfold addMatcher MatcherHolds
  by_cases hname : m.name = "__name__".toList
  · rw [if_pos hname, if_pos hname, ← metricNameMatches_iff]
    rcases metricNameMatches regex metric m with e | _ | _
    · exact .inl ⟨e, rfl, fun h => nomatch h⟩
    · refine .inr ⟨_, rfl, rfl, fun h => absurd h queryHolds_matchNone, ?_⟩
      rintro ⟨-, h⟩
      exact absurd (Except.ok.inj h) Bool.false_ne_true
    · exact .inr ⟨q, rfl, rfl, fun h => ⟨h, rfl⟩, fun h => h.1⟩
  · rw [if_neg hname, if_neg hname]
    refine .inr ⟨_, rfl, ?_, ?_⟩
    · rcases m.op <;> rfl
    · have hactual := eval_label reader s promoted m.name
      rcases m.op
      · exact queryHolds_filter.trans (and_congr_right fun _ => holds_eq hactual)
      · exact queryHolds_filter.trans (and_congr_right fun _ => holds_ne hactual)
      · exact queryHolds_filter.trans (and_congr_right fun _ => holds_regexpLike hactual)
      · exact queryHolds_filter.trans (and_congr_right fun _ => holds_not_regexpLike hactual)

/-- The query with all matchers. -/
theorem foldlM_holds :
    (∃ q', matchers.foldlM (addMatcher regex metric) q = .ok q' ∧ q'.table = q.table ∧
        QueryHolds reader regex table promoted s q') ↔
      QueryHolds reader regex table promoted s q ∧ ∀ m ∈ matchers, MatcherHolds reader regex metric s m := by
  induction matchers generalizing q with
  | nil =>
    constructor
    · rintro ⟨q', hq', -, h⟩
      cases hq'
      exact ⟨h, fun m hm => absurd hm not_mem_nil⟩
    · exact fun h => ⟨q, rfl, rfl, h.1⟩
  | cons m matchers ih =>
    rw [forall_mem_cons, foldlM_cons]
    rcases addMatcher_holds reader regex table promoted s q metric m with
      ⟨e, he, hnot⟩ | ⟨q', hq', htable, hiff⟩
    · rw [he]
      exact ⟨fun ⟨_, h, _⟩ => (nomatch h), fun h => absurd h.2.1 hnot⟩
    · rw [hq', ← and_assoc, ← hiff, ← ih, ← htable]
      rfl

/-! ## Requests -/

/-- What a purpose reads are tables of points. -/
theorem tables_points {purpose : PromFetchPurpose} (h : t ∈ purpose.tables) :
    field "metric" .utf8 false ∈ fixedFields t ∧ (rewriteParams t).1 = "time".toList := by
  rcases purpose
  · rcases mem_cons.mp h with rfl | h
    · exact ⟨by decide, rfl⟩
    · rw [mem_singleton.mp h]
      exact ⟨by decide, rfl⟩
  · rw [mem_singleton.mp h]
    exact ⟨by decide, rfl⟩
  · rw [mem_singleton.mp h]
    exact ⟨by decide, rfl⟩

theorem mapM_mem {α β : Type} {f : α → Except SemanticError β} {l : List α} {bs : List β}
    (h : l.mapM f = .ok bs) {b : β} (hb : b ∈ bs) : ∃ a ∈ l, f a = .ok b := by
  induction l generalizing bs with
  | nil =>
    cases h
    exact absurd hb not_mem_nil
  | cons a l ih =>
    rw [mapM_cons] at h
    obtain ⟨c, hc, h⟩ := bind_eq_ok.mp h
    obtain ⟨cs, hcs, h⟩ := bind_eq_ok.mp h
    cases h
    rcases mem_cons.mp hb with rfl | hb
    · exact ⟨a, mem_cons_self, hc⟩
    · obtain ⟨a', ha', hfa⟩ := ih hcs hb
      exact ⟨a', mem_cons_of_mem _ ha', hfa⟩

theorem mapM_exists {α β : Type} {f : α → Except SemanticError β} {l : List α}
    (h : ∀ a ∈ l, ∃ b, f a = .ok b) :
    ∃ bs, l.mapM f = .ok bs ∧ ∀ a ∈ l, ∀ b, f a = .ok b → b ∈ bs := by
  induction l with
  | nil => exact ⟨[], rfl, fun a ha => absurd ha not_mem_nil⟩
  | cons a l ih =>
    obtain ⟨b, hb⟩ := h a mem_cons_self
    obtain ⟨bs, hbs, hmem⟩ := ih fun a ha => h a (mem_cons_of_mem _ ha)
    refine ⟨b :: bs, ?_, ?_⟩
    · rw [mapM_cons, hb, hbs]
      rfl
    · intro a' ha' b' hb'
      rcases mem_cons.mp ha' with rfl | ha'
      · rw [hb] at hb'
        rw [Except.ok.inj hb']
        exact mem_cons_self
      · exact mem_cons_of_mem _ (hmem a' ha' b' hb')

/-- The exact name of a metric is that of a matcher, and not empty. -/
theorem exactMetricName_ok (h : exactMetricName matchers = .ok metric) :
    metric ≠ [] ∧ ⟨"__name__".toList, .eq, metric⟩ ∈ matchers := by
  unfold exactMetricName at h
  rcases hfind : matchers.find? fun m => m.name = "__name__".toList ∧ m.op = .eq with _ | m <;> rw [hfind] at h
  · exact nomatch h
  · dsimp only at h
    by_cases hempty : m.value = []
    · rw [if_pos hempty] at h
      exact nomatch h
    · rw [if_neg hempty] at h
      have htest := find?_some hfind
      obtain ⟨hname, hop⟩ : m.name = "__name__".toList ∧ m.op = .eq := of_decide_eq_true htest
      obtain rfl : m.value = metric := Except.ok.inj h
      refine ⟨hempty, ?_⟩
      rw [← hname, ← hop]
      exact mem_of_find?_eq_some hfind

/-- Matchers do not change the table. -/
theorem foldlM_table {q' : MetricPointsQuery} (h : matchers.foldlM (addMatcher regex metric) q = .ok q') :
    q'.table = q.table := by
  induction matchers generalizing q with
  | nil =>
    cases h
    rfl
  | cons m matchers ih =>
    rw [foldlM_cons] at h
    obtain ⟨q₁, hq₁, h⟩ := bind_eq_ok.mp h
    rw [ih h]
    unfold addMatcher at hq₁
    split at hq₁
    · obtain ⟨b, -, hb⟩ := bind_eq_ok.mp hq₁
      rcases b <;> cases hb <;> rfl
    · cases hq₁
      rcases m.op <;> rfl

/-- Before its matchers a query asks for the metric. -/
theorem boundedQuery_holds {request : PromFetchRequest} (ht : t ∈ request.purpose.tables)
    (hbounds : request.bounds.contains s.row.time = true) (t' : Table) :
    QueryHolds reader regex table promoted s (boundedQuery request metric t') ↔ s.metric = metric := by
  obtain ⟨hmetric, htime⟩ := tables_points ht
  have hcolumn : (Operand.column "metric".toList).eval reader (s.cell reader) = some s.metric := by
    rw [Operand.eval, cell_metric s hmetric]
    rfl
  have hconds : (boundedQuery request metric t').conditions promoted =
      .eq (.column "metric".toList) metric ::
        rangeConditions ⟨request.bounds.startNs, request.bounds.endNs⟩ true := by
    have hrange : (some (⟨request.bounds.startNs, request.bounds.endNs⟩ : TimeRange)).toList.flatMap
        (fun r => rangeConditions r true) = rangeConditions ⟨request.bounds.startNs, request.bounds.endNs⟩ true :=
      flatMap_singleton _ _
    exact (append_nil _).trans (congrArg (List.cons _) hrange)
  unfold QueryHolds
  rw [hconds, forall_mem_cons, holds_eq hcolumn, and_iff_left_iff_imp]
  rintro - c hc
  have hcell : s.cell reader "time".toList = .time s.row.time := by
    rw [← htime]
    exact (s.cell_fixed reader (mem_fixedFields t).2).trans s.row.time_eq
  obtain ⟨hstart, hstop⟩ := Bool.and_eq_true_iff.mp hbounds
  exact holds_range hcell (of_decide_eq_true hstart) (of_decide_eq_true hstop) hc

/-- The queries of a request select a point, if and only if it is of the metric and storage finds what
each matcher asks. -/
theorem selected_iff {request : PromFetchRequest} (ht : t ∈ request.purpose.tables)
    (hbounds : request.bounds.contains s.row.time = true) (hexact : exactMetricName request.matchers = .ok metric) :
    Selected reader regex table promoted request t (s.cell reader) ↔
      s.metric = metric ∧ ∀ m ∈ request.matchers, MatcherHolds reader regex metric s m := by
  have hquery : ∀ t', (∃ q, request.matchers.foldlM (addMatcher regex metric) (boundedQuery request metric t') =
      .ok q ∧ q.table = t' ∧ QueryHolds reader regex table promoted s q) ↔
        s.metric = metric ∧ ∀ m ∈ request.matchers, MatcherHolds reader regex metric s m := by
    intro t'
    rw [← boundedQuery_holds ht hbounds t']
    exact foldlM_holds
  unfold Selected buildMetricPointQueries
  rw [hexact]
  constructor
  · rintro ⟨queries, hqueries, q, hq, htable, hwhere⟩
    obtain ⟨t', _, hfold⟩ := mapM_mem hqueries hq
    have hq' : ∃ q, request.matchers.foldlM (addMatcher regex metric) (boundedQuery request metric t') =
        .ok q ∧ q.table = t' ∧ QueryHolds reader regex table promoted s q := by
      refine ⟨q, hfold, ?_, evalWhere_true.mp hwhere⟩
      rw [foldlM_table hfold]
      rfl
    exact (hquery t').mp hq'
  · intro h
    obtain ⟨queries, hqueries, hmem⟩ := mapM_exists fun t' (_ : t' ∈ request.purpose.tables) =>
      ((hquery t').mpr h).imp fun q hq => hq.1
    obtain ⟨q, hfold, htable, hholds⟩ := (hquery t).mpr h
    exact ⟨queries, hqueries, q, hmem t ht q hfold, htable, evalWhere_true.mpr hholds⟩

theorem labelsMatch_iff :
    LabelsMatch reader regex matchers (s.cell reader) ↔ ∀ m ∈ matchers, m.op.Holds regex m.value
      (((metricLabelsFromBatch reader (s.cell reader)).get m.name).getD []) :=
  forall₂_congr fun _ _ => matches_iff

/-- The queries of a request select a point exactly when its labels match, for every request within the
point's time whose matchers are for its metric's name or for given labels, if and only if no attribute
replaces the name, and the name is empty or each of the labels is kept. -/
theorem pushdown_exact_iff (regex : Text → Option (Text → Bool)) (table : CharTable) (promoted : List Text)
    (s : StoredPoint t) (ht : ∃ purpose : PromFetchPurpose, t ∈ purpose.tables)
    (hagree : reader.Agree s.row.attributes) (names : List Text) :
    (∀ request : PromFetchRequest, t ∈ request.purpose.tables →
        request.bounds.contains s.row.time = true →
        (∀ m ∈ request.matchers, m.name = "__name__".toList ∨ m.name ∈ names) →
        (∃ metric, exactMetricName request.matchers = .ok metric) →
        (Selected reader regex table promoted request t (s.cell reader) ↔
          LabelsMatch reader regex request.matchers (s.cell reader))) ↔
      NameKept reader s ∧
        (s.metric = [] ∨ ∀ name ∈ names, name ≠ "__name__".toList → LabelKept reader s name) := by
  obtain ⟨purpose, htable⟩ := ht
  have hmetric := (tables_points htable).1
  have hname : ((metricLabelsFromBatch reader (s.cell reader)).get "__name__".toList).getD [] = s.metric ↔
      NameKept reader s := by
    rw [get_metricLabels s hmetric, if_pos rfl, NameKept]
    rcases attributeLabel reader s.row.attributes "__name__".toList with _ | v
    · exact ⟨fun _ v h => (nomatch h), fun _ => rfl⟩
    · exact ⟨fun h w hw => by rw [← some.inj hw]; exact h, fun h => h v rfl⟩
  constructor
  · intro h
    -- a request for the name `v` and one more label
    have hask : ∀ v, v ≠ [] → ∀ rest : List LabelMatcher, (∀ m ∈ rest, m.name ∈ names) →
        (Selected reader regex table promoted
            ⟨⟨s.row.time, s.row.time⟩, purpose, ⟨"__name__".toList, .eq, v⟩ :: rest, 0, 0⟩ t (s.cell reader) ↔
          LabelsMatch reader regex (⟨"__name__".toList, .eq, v⟩ :: rest) (s.cell reader)) ∧
        (Selected reader regex table promoted
            ⟨⟨s.row.time, s.row.time⟩, purpose, ⟨"__name__".toList, .eq, v⟩ :: rest, 0, 0⟩ t (s.cell reader) ↔
          s.metric = v ∧ ∀ m ∈ rest, MatcherHolds reader regex v s m) := by
      intro v hv rest hrest
      have hexact : exactMetricName (⟨"__name__".toList, .eq, v⟩ :: rest) = .ok v := if_neg hv
      have hbounds : (FetchBounds.mk s.row.time s.row.time).contains s.row.time = true :=
        Bool.and_eq_true_iff.mpr ⟨decide_eq_true le_rfl, decide_eq_true le_rfl⟩
      constructor
      · apply h _ htable hbounds
        · intro m hm
          rcases mem_cons.mp hm with rfl | hm
          · exact .inl rfl
          · exact .inr (hrest m hm)
        · exact ⟨v, hexact⟩
      · have hselect : Selected reader regex table promoted
            ⟨⟨s.row.time, s.row.time⟩, purpose, ⟨"__name__".toList, .eq, v⟩ :: rest, 0, 0⟩ t (s.cell reader) ↔
              s.metric = v ∧ ∀ m ∈ ⟨"__name__".toList, .eq, v⟩ :: rest, MatcherHolds reader regex v s m :=
          selected_iff htable hbounds hexact
        rw [hselect, forall_mem_cons]
        exact and_congr_right fun _ => and_iff_right rfl
    have hkept : NameKept reader s := by
      apply hname.mp
      by_contra hne
      by_cases hempty : s.metric = []
      · -- a request for the name that replaces the empty one
        have hv : ((metricLabelsFromBatch reader (s.cell reader)).get "__name__".toList).getD [] ≠ [] :=
          fun hv => hne (hv.trans hempty.symm)
        obtain ⟨hexact, hselected⟩ := hask _ hv [] fun m hm => absurd hm not_mem_nil
        have hmatch := hexact.mpr (labelsMatch_iff.mpr (forall_mem_singleton.mpr rfl))
        exact hne (hselected.mp hmatch).1.symm
      · obtain ⟨hexact, hselected⟩ := hask s.metric hempty [] fun m hm => absurd hm not_mem_nil
        have hmatch := hexact.mp (hselected.mpr ⟨rfl, fun m hm => absurd hm not_mem_nil⟩)
        exact hne (labelsMatch_iff.mp hmatch _ mem_cons_self)
    refine ⟨hkept, ?_⟩
    by_cases hempty : s.metric = []
    · exact .inl hempty
    · refine .inr ?_
      intro name hmem hne
      rw [← storageLabel_eq_iff s hagree hmetric hne]
      -- a request for the value that storage finds
      obtain ⟨hexact, hselected⟩ := hask s.metric hempty [⟨name, .eq, storageLabel reader s name⟩]
        (forall_mem_singleton.mpr hmem)
      have hstored : MatcherHolds reader regex s.metric s ⟨name, .eq, storageLabel reader s name⟩ := by
        unfold MatcherHolds
        rw [if_neg hne]
        rfl
      have hmatch := hexact.mp (hselected.mpr ⟨rfl, forall_mem_singleton.mpr hstored⟩)
      have hlabel := labelsMatch_iff.mp hmatch _ (mem_cons_of_mem _ mem_cons_self)
      exact hlabel.symm
  · rintro ⟨hkept, hlabels⟩ request htables hbounds hnames ⟨metric, hexact⟩
    obtain ⟨hne, hmem⟩ := exactMetricName_ok hexact
    rw [selected_iff htables hbounds hexact, labelsMatch_iff]
    have hfound : ∀ m ∈ request.matchers, s.metric = metric →
        (MatcherHolds reader regex metric s m ↔ m.op.Holds regex m.value
          (((metricLabelsFromBatch reader (s.cell reader)).get m.name).getD [])) := by
      intro m hm heq
      unfold MatcherHolds
      by_cases hm' : m.name = "__name__".toList
      · rw [if_pos hm', hm', hname.mpr hkept, heq]
      · have hlabels := hlabels.resolve_left fun hempty => hne (heq.symm.trans hempty)
        have hkept := hlabels m.name ((hnames m hm).resolve_left hm') hm'
        rw [if_neg hm', (storageLabel_eq_iff s hagree hmetric hm').mpr hkept]
    constructor
    · rintro ⟨heq, hall⟩ m hm
      exact (hfound m hm heq).mp (hall m hm)
    · intro hall
      have heq : s.metric = metric := (hname.mpr hkept).symm.trans (hall _ hmem)
      exact ⟨heq, fun m hm => (hfound m hm heq).mpr (hall m hm)⟩

end

/-! ## A point of a service -/

/-- A point of the metric `cpu` and the service `cart`, whose route is `/cart`. -/
def cartPoint : StoredPoint .metricsGauge where
  promote := []
  row :=
    { cells := fun c =>
        if c = "attributes".toList then .text "\x7b\"route\":\"/cart\"\x7d".toList
        else if c = "time".toList then .time 7
        else if c = "metric".toList then .text "cpu".toList
        else if c = "service".toList then .text "cart".toList else .other 0
      attributes := "\x7b\"route\":\"/cart\"\x7d".toList
      time := 7
      attributes_eq := if_pos rfl
      time_eq := rfl
      not_null := by
        intro f _ _
        split
        · simp
        · split
          · simp
          · split
            · simp
            · split <;> simp }
  metric := "cpu".toList
  service := some "cart".toList
  metric_eq := rfl
  service_eq := rfl

theorem cartReader_agree (json : Text) : cartReader.Agree json := by
  intro ms hms
  exact ⟨_, rfl, (some.inj hms).symm⟩

/-- The points of the metric `cpu` with a label of `cart`. -/
def cartRequest (label : String) : PromFetchRequest :=
  ⟨⟨0, 10⟩, .instantSelector, [⟨"__name__".toList, .eq, "cpu".toList⟩, ⟨label.toList, .eq, "cart".toList⟩], 10, 10⟩

/-- Storage selects the point by its service name, of which the labels have nothing. -/
theorem service_name_selected :
    Selected cartReader (fun _ => none) Traces.noEngine.table [] (cartRequest "service.name") .metricsGauge
        (cartPoint.cell cartReader) ∧
      ¬ LabelsMatch cartReader (fun _ => none) (cartRequest "service.name").matchers (cartPoint.cell cartReader) := by
  have htable : Table.metricsGauge ∈ (cartRequest "service.name").purpose.tables := mem_cons_self
  constructor
  · apply (selected_iff htable (by decide) rfl).mpr
    refine ⟨rfl, ?_⟩
    rw [cartRequest, forall_mem_cons, forall_mem_singleton]
    exact ⟨rfl, rfl⟩
  · intro h
    have hlabel := labelsMatch_iff.mp h _ (mem_cons_of_mem _ mem_cons_self)
    rw [get_metricLabels cartPoint (tables_points htable).1] at hlabel
    have hempty : ([] : Text) = "cart".toList := hlabel
    exact absurd hempty (by decide)

/-- By its service the point is selected as its labels match. -/
theorem pushdown_exact_route :
    Selected cartReader (fun _ => none) Traces.noEngine.table [] (cartRequest "service") .metricsGauge
        (cartPoint.cell cartReader) ↔
      LabelsMatch cartReader (fun _ => none) (cartRequest "service").matchers (cartPoint.cell cartReader) := by
  refine (pushdown_exact_iff (fun _ => none) Traces.noEngine.table [] cartPoint
    ⟨.instantSelector, mem_cons_self⟩ (cartReader_agree _) ["route".toList, "service".toList]).mpr
    ?_ (cartRequest "service") mem_cons_self rfl ?_ ⟨"cpu".toList, rfl⟩
  rotate_left
  · rw [cartRequest, forall_mem_cons, forall_mem_singleton]
    exact ⟨.inl rfl, .inr (mem_cons_of_mem _ mem_cons_self)⟩
  constructor
  · have hnone : attributeLabel cartReader cartPoint.row.attributes "__name__".toList = none := by decide
    intro v hv
    rw [hnone] at hv
    exact nomatch hv
  · refine .inr ?_
    rw [forall_mem_cons, forall_mem_singleton]
    constructor
    · intro _
      unfold LabelKept
      rw [if_neg (by decide), if_neg (by decide)]
      refine ⟨fun h => ?_, by decide⟩
      exact absurd h.1 (by decide)
    · intro _
      unfold LabelKept
      have hnone : attributeLabel cartReader cartPoint.row.attributes "service".toList = none := by decide
      rw [if_pos rfl, hnone]
      intro v hv
      exact nomatch hv

end Imbh.Lgtm
