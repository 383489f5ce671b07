import Imbh.Lgtm.LogQl
import Imbh.Syntax.Cursor

/-!
# Translated queries

What the translators give: an expression of one of the three languages and the profile that it conforms
to. The names of metrics are resolved in a context.
-/

namespace Imbh.Syntax

open Lib Lgtm

/-! ## Metrics -/

/-- Source: `mod.rs` `MetricKind` -/
inductive MetricKind
  | gauge
  | cumulativeCounter
  | cumulativeHistogram
  deriving DecidableEq

/-- `{kind:?}` -/
def MetricKind.debugText : MetricKind → Text
  | .gauge => "Gauge".toList
  | .cumulativeCounter => "CumulativeCounter".toList
  | .cumulativeHistogram => "CumulativeHistogram".toList

/-- Source: `mod.rs` `MetricResolution` -/
structure MetricResolution where
  queryName : Text
  storageName : Text
  kind : MetricKind
  deriving DecidableEq

/-- Source: `mod.rs` `TranslateContext` -/
structure TranslateContext where
  metrics : List MetricResolution

/-- Source: `mod.rs` `TranslateContext::resolve_any_metric` -/
def TranslateContext.resolveAnyMetric (context : TranslateContext) (queryName : Text)
    (range : SourceRange) : Except Diagnostic MetricResolution :=
  match context.metrics.filter fun metric => metric.queryName = queryName with
  | [] =>
      .error ⟨.needsResolution, range, "metric ".toList ++ debugText queryName ++ " is not resolved".toList⟩
  | [metric] => .ok metric
  | _ =>
      .error ⟨.needsResolution, range,
        "metric ".toList ++ debugText queryName ++ " resolves ambiguously".toList⟩

/-- Source: `mod.rs` `TranslateContext::resolve_metric` -/
def TranslateContext.resolveMetric (context : TranslateContext) (queryName : Text)
    (expected : MetricKind) (range : SourceRange) : Except Diagnostic Text :=
  match context.metrics.filter fun metric => metric.queryName = queryName ∧ metric.kind = expected with
  | [] =>
      .error ⟨.needsResolution, range,
        "metric ".toList ++ debugText queryName ++ " is not resolved as ".toList ++ expected.debugText⟩
  | [metric] => .ok metric.storageName
  | _ =>
      .error ⟨.needsResolution, range,
        "metric ".toList ++ debugText queryName ++ " resolves ambiguously".toList⟩

/-! ## Label matchers -/

/-- The operators of label matchers, in the order in which they are tried. -/
def matchTokens : List (Text × MatchOp) :=
  [ ("=~".toList, .regex),
    ("!~".toList, .notRegex),
    ("!=".toList, .ne),
    ("=".toList, .eq) ]

/-- The name, the operator and the string of a label matcher. -/
def matcher {α : Type} {source : Text} (message : Text) (make : Text → MatchOp → Text → α) :
    Parse source α := do
  let (name, _) ← identifier
  match ← consumeFirst matchTokens with
  | none => failHere .syntaxError message
  | some op => return make name op (← quotedString)

/-- Source: the labels of `promql.rs` `parse_grouping` and `logql.rs` `parse_sum_grouping` -/
def groupingLabels {source : Text} : Parse source (List Text) :=
  commaList ")".toList (Prod.fst <$> identifier)

/-! ## Results -/

/-- Source: `common.rs` `SemanticProfile` -/
structure SemanticProfile where
  capabilityId : Text
  upstreamProduct : Text
  upstreamVersion : Text
  deriving DecidableEq

/-- Source: `common.rs` `PROMQL_PROFILE` -/
def promqlProfile : SemanticProfile :=
  ⟨"imbh.promql.p1.v1".toList, "Prometheus".toList, "3.12.0".toList⟩

/-- Source: `common.rs` `LOGQL_PROFILE` -/
def logqlProfile : SemanticProfile := ⟨"imbh.logql.l1.v1".toList, "Loki".toList, "3.7.2".toList⟩

/-- Source: `common.rs` `TRACEQL_PROFILE` -/
def traceqlProfile : SemanticProfile := ⟨"imbh.traceql.t1.v1".toList, "Tempo".toList, "2.10.5".toList⟩

/-- Source: `mod.rs` `ImbhQueryModel` -/
inductive ImbhQueryModel
  | prom (expr : PromExpr)
  | log (expr : LogRangeExpr)
  | logSelector (filter : LogFilter)
  | trace (expr : SpansetExpr)

/-- Source: `mod.rs` `TranslatedQuery` -/
structure TranslatedQuery where
  model : ImbhQueryModel
  profile : SemanticProfile

def TranslatedQuery.prom (model : PromExpr) : TranslatedQuery := ⟨.prom model, promqlProfile⟩

def TranslatedQuery.log (model : LogRangeExpr) : TranslatedQuery := ⟨.log model, logqlProfile⟩

def TranslatedQuery.logSelector (model : LogFilter) : TranslatedQuery :=
  ⟨.logSelector model, logqlProfile⟩

def TranslatedQuery.trace (model : SpansetExpr) : TranslatedQuery := ⟨.trace model, traceqlProfile⟩

/-- A translation of the whole source. -/
def translate {α : Type} (source : Text) (parser : Parse source α) : Except Diagnostic α :=
  (parser (Cursor.new source)).map Prod.fst

theorem translate_map {α β : Type} (source : Text) (f : α → β) (parser : Parse source α) :
    translate source (f <$> parser) = (translate source parser).map f := by
  unfold translate
  rcases h : parser (Cursor.new source) with d | ⟨a, c⟩ <;>
    simp [Functor.map, StateT.map, bind, Except.bind, pure, Except.pure, Except.map, h]

end Imbh.Syntax
