import Imbh.Syntax.Query

/-!
# The LogQL translator

A log query is a stream selector with line filters behind it, or a range aggregation around one.
-/

namespace Imbh.Syntax.LogQl

open Lib Lgtm Syntax

variable {source : Text}

/-! ## Filters -/

/-- The filter of a label. -/
def labelFilter (name : Text) : MatchOp → Text → LogFilter
  | .regex, value => .labelRegex name value
  | .notRegex, value => .labelNotRegex name value
  | .ne, value => .labelNe name value
  | .eq, value => .labelEq name value

/-- The operators of line filters, in the order in which they are tried. -/
def lineTokens : List (Text × (Text → LogFilter)) :=
  [ ("|=".toList, .lineContains),
    ("!=".toList, .lineNotContains),
    ("|~".toList, .lineRegex),
    ("!~".toList, .lineNotRegex),
    ("|?".toList, .lineMatches),
    ("!?".toList, .lineNotMatches) ]

/-- One line filter behind the filters before it, if there is one. -/
def lineRound (filters : List LogFilter) : Parse source (List LogFilter ⊕ List LogFilter) := do
  match ← consumeFirst lineTokens with
  | some make => return .inl (filters ++ [make (← quotedString)])
  | none => return .inr filters

/-- The filters as one. Source: `logql.rs` `parse_log_range`, its result -/
def filterOf : List LogFilter → LogFilter
  | [] => .all
  | [filter] => filter
  | filters => .and filters

/-- Source: `logql.rs` `parse_log_range`, the stream selector -/
def parseStream : Parse source (List LogFilter) := do
  skipWs
  if (← peek) = some '\x7b' then
    expect "\x7b".toList
    commaList "\x7d".toList (matcher "expected LogQL stream label matcher".toList labelFilter)
  else return []

/-- Source: `logql.rs` `parse_log_range` -/
def parseLogRange : Parse source LogFilter := do
  let labels ← parseStream
  let filters ← loop lineRound labels
  return filterOf filters

/-! ## Range aggregations -/

/-- Source: `logql.rs` `parse_sum_grouping` -/
def parseSumGrouping : Parse source Grouping := do
  let (keyword, range) ← identifier
  if keyword ≠ "by".toList then
    failAt .unsupported range
      "L1 supports sum by(...), not other vector aggregation groupings".toList
  else
    expect "(".toList
    return .by (← groupingLabels)

def rangeOps : List (Text × LogRangeOp) :=
  [ ("count_over_time".toList, .countOverTime),
    ("rate".toList, .rate) ]

/-- The offset behind a window, if there is one. -/
def parseOffset : Parse source ℕ := do
  if ← consume "offset".toList then durationNs else return 0

/-- The range and its offset, in parentheses. -/
def parseRange : Parse source (LogFilter × ℕ × ℕ) := do
  expect "(".toList
  let filter ← parseLogRange
  expect "[".toList
  let windowNs ← durationNs
  expect "]".toList
  let offsetNs ← parseOffset
  expect ")".toList
  return (filter, windowNs, offsetNs)

/-- The function of a range aggregation, from the first word on: `sum` has its grouping before it. -/
def parseFunction (word : Text) : Parse source (Text × Option Grouping) := do
  if word = "sum".toList then
    let grouping ← parseSumGrouping
    expect "(".toList
    let (function, _) ← identifier
    return (function, some grouping)
  else return (word, none)

/-- Source: `logql.rs` `parse_expression` -/
def parseExpression : Parse source LogRangeExpr := do
  let (word, range) ← identifier
  let (function, grouping) ← parseFunction word
  match rangeOps.find? fun op => op.1 = function with
  | none =>
      failAt .unsupported range "L1 supports count_over_time, rate, and sum by around them".toList
  | some (_, op) =>
      let (filter, windowNs, offsetNs) ← parseRange
      if grouping.isSome then expect ")".toList
      return ⟨filter, windowNs, offsetNs, op, grouping⟩

/-- A range aggregation, or where a filter comes next the filters alone.
Source: `logql.rs` `translate_logql` -/
def parseTranslated : Parse source TranslatedQuery := do
  skipWs
  if (← peek).any fun ch => ch = '\x7b' || ch = '|' || ch = '!' then
    return .logSelector (← parseLogRange)
  else return .log (← parseExpression)

/-- Source: `logql.rs` `translate_logql` -/
def parseQuery : Parse source TranslatedQuery := do
  let translated ← parseTranslated
  finish
  return translated

/-- Source: `logql.rs` `translate_logql` -/
def translateLogql (source : Text) (_context : TranslateContext) : Except Diagnostic TranslatedQuery :=
  translate source parseQuery

end Imbh.Syntax.LogQl
