import Imbh.Syntax.Query

/-!
# The PromQL translator

A recursive descent over expressions: parentheses, aggregations, `rate`, `histogram_quantile` around the
canonical sum of a rate, and selectors.
-/

namespace Imbh.Syntax.PromQl

open Lib Lgtm Syntax

variable {source : Text}

/-! ## Groupings and selectors -/

/-- Source: `promql.rs` `parse_grouping` -/
def parseGrouping : Parse source Grouping := do
  let (keyword, range) ← identifier
  if keyword = "by".toList then
    expect "(".toList
    return .by (← groupingLabels)
  else if keyword = "without".toList then
    expect "(".toList
    return .without (← groupingLabels)
  else failAt .syntaxError range "expected by or without grouping".toList

/-- Whether a grouping comes next. -/
def atGrouping : Parse source Bool := do
  if ← consumeKeyword "by".toList then return true else consumeKeyword "without".toList

/-- Source: `promql.rs` `parse_optional_grouping` -/
def parseOptionalGrouping : Parse source (Option Grouping) := do
  if ← probe atGrouping then return some (← parseGrouping) else return none

/-- The matcher of the name of a metric. -/
def nameMatcher (storageMetric : Text) : LabelMatcher := ⟨"__name__".toList, .eq, storageMetric⟩

/-- Source: `promql.rs` `parse_selector` -/
def parseSelector (storageMetric : Text) : Parse source (List LabelMatcher) := do
  if ← consume "\x7b".toList then
    let matchers ← commaList "\x7d".toList
      (matcher "expected PromQL label matcher operator".toList LabelMatcher.mk)
    return nameMatcher storageMetric :: matchers
  else return [nameMatcher storageMetric]

/-- A metric of some kind, its selector and its window.
Source: `promql.rs` `parse_expression` and `parse_histogram_quantile`, behind the parenthesis of `rate` -/
def parseRate (context : TranslateContext) (kind : MetricKind) : Parse source (List LabelMatcher × ℕ) := do
  let (metric, range) ← identifier
  let storage ← context.resolveMetric metric kind range
  let matchers ← parseSelector storage
  expect "[".toList
  let windowNs ← durationNs
  expect "]".toList
  expect ")".toList
  return (matchers, windowNs)

/-- The grouping of an aggregation, if there is one: before its operand or behind it.
Source: `promql.rs` `parse_expression` and `parse_histogram_quantile` -/
def theGrouping (before behind : Option Grouping) : Parse source (Option Grouping) :=
  if before.isSome ∧ behind.isSome then
    failHere .syntaxError
      "aggregation grouping may appear before or after the operand, not both".toList
  else return before.or behind

/-! ## Expressions -/

def quantileLabels : Option Grouping → Parse source (List Text)
  | none => failHere .semanticMismatch "histogram_quantile requires sum by (le, ...)".toList
  | some (.without _) =>
      failHere .semanticMismatch "histogram_quantile requires by(le, ...) grouping".toList
  | some (.by labels) =>
      if "le".toList ∈ labels then return labels.erase "le".toList
      else failHere .semanticMismatch "histogram_quantile grouping must contain le".toList

/-- The quantile at a depth from which so many levels are left.
Source: `promql.rs` `parse_histogram_quantile` -/
def parseHistogramQuantile (context : TranslateContext) : ℕ → Parse source PromExpr
  | 0 => failHere .limitExceeded "PromQL expression nesting exceeds 128".toList
  | _ + 1 => do
      expect "(".toList
      let phi ← float
      expect ",".toList
      let (sum, sumRange) ← identifier
      if sum ≠ "sum".toList then
        failAt .semanticMismatch sumRange "P1 histogram_quantile requires sum by (le, ...)".toList
      else
        let before ← parseOptionalGrouping
        expect "(".toList
        let (rate, rateRange) ← identifier
        if rate ≠ "rate".toList then
          failAt .semanticMismatch rateRange
            "histogram_quantile requires rate() before bucket aggregation".toList
        else
          expect "(".toList
          let (matchers, windowNs) ← parseRate context .cumulativeHistogram
          expect ")".toList
          let behind ← parseOptionalGrouping
          let labels ← quantileLabels (← theGrouping before behind)
          expect ")".toList
          return .histogramQuantile phi matchers windowNs (.by labels)

/-- The names of the aggregations. -/
def aggregateNames : List (Text × PromAggregate) :=
  [ ("sum".toList, .sum),
    ("avg".toList, .avg),
    ("min".toList, .min),
    ("max".toList, .max),
    ("count".toList, .count) ]

/-- The expression of an aggregation behind its name, where `operand` reads what is in the parentheses. -/
def parseAggregate (op : PromAggregate) (operand : Parse source PromExpr) : Parse source PromExpr := do
  let before ← parseOptionalGrouping
  expect "(".toList
  let input ← operand
  expect ")".toList
  let behind ← parseOptionalGrouping
  let grouping ← theGrouping before behind
  return .aggregate op (grouping.getD (.by [])) input

/-- A selector of a metric that is no histogram, behind the name of the metric. -/
def parseMetric (context : TranslateContext) (name : Text) (range : SourceRange) :
    Parse source PromExpr := do
  let metric ← context.resolveAnyMetric name range
  if metric.kind = .cumulativeHistogram then
    failAt .unsupported range
      "histogram selectors require canonical histogram_quantile(sum by (le, ...)(rate(...)))".toList
  else return .selector (← parseSelector metric.storageName)

/-- The parser at a depth from which so many levels are left.
Source: `promql.rs` `parse_expression` -/
def parseExpression (context : TranslateContext) : ℕ → Parse source PromExpr
  | 0 => failHere .limitExceeded "PromQL expression nesting exceeds 128".toList
  | room + 1 => do
      if ← consume "(".toList then
        let expression ← parseExpression context room
        expect ")".toList
        return expression
      else
        let (name, range) ← identifier
        match aggregateNames.find? fun aggregate => aggregate.1 = name with
        | some (_, op) => parseAggregate op (parseExpression context room)
        | none =>
            if name = "rate".toList then
              expect "(".toList
              let (matchers, windowNs) ← parseRate context .cumulativeCounter
              return .rate matchers windowNs
            else if name = "histogram_quantile".toList then parseHistogramQuantile context room
            else parseMetric context name range

/-- Source: `promql.rs` `translate_promql` -/
def parseQuery (context : TranslateContext) : Parse source PromExpr := do
  let expression ← parseExpression context 128
  finish
  return expression

/-- Source: `promql.rs` `translate_promql` -/
def translatePromql (source : Text) (context : TranslateContext) : Except Diagnostic TranslatedQuery :=
  translate source (TranslatedQuery.prom <$> parseQuery context)

end Imbh.Syntax.PromQl
