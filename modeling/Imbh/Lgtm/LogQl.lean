import Imbh.Lgtm.PromExecute

/-!
# LogQL

Filters on log entries, and the reference evaluator of a range expression: at each instant the entries in
a window are counted by their labels, and the counts are grouped.
-/

namespace Imbh.Lgtm

open Lib Imbh.Core

/-- Source: `logql.rs` `LogEntry` -/
structure LogEntry where
  timestampNs : ℤ
  line : Text
  labels : LabelSet

/-- Source: `logql.rs` `LogFilter` -/
inductive LogFilter
  | all
  | labelEq (name value : Text)
  | labelNe (name value : Text)
  | labelRegex (name pattern : Text)
  | labelNotRegex (name pattern : Text)
  | lineContains (needle : Text)
  | lineNotContains (needle : Text)
  | lineRegex (pattern : Text)
  | lineNotRegex (pattern : Text)
  | lineMatches (query : Text)
  | lineNotMatches (query : Text)
  | and (filters : List LogFilter)

section

variable (regex : Text → Option (Text → Bool)) (table : CharTable)

/-- The match of a label with an anchored pattern. Source: `logql.rs` `LogFilter::matches` -/
def labelMatch (entry : LogEntry) (name pattern : Text) : Except SemanticError Bool :=
  match regex (anchored pattern) with
  | none => .error (.malformed "invalid LogQL label regex".toList)
  | some isMatch => return isMatch ((entry.labels.get name).getD [])

/-- The match of a line. Source: `logql.rs` `LogFilter::matches` -/
def lineMatch (entry : LogEntry) (pattern : Text) : Except SemanticError Bool :=
  match regex pattern with
  | none => .error (.malformed "invalid LogQL line regex".toList)
  | some isMatch => return isMatch entry.line

mutual

/-- Source: `logql.rs` `LogFilter::matches` -/
def LogFilter.matches (entry : LogEntry) : LogFilter → Except SemanticError Bool
  | .all => return true
  | .labelEq name value => return (entry.labels.get name).getD [] = value
  | .labelNe name value => return (entry.labels.get name).getD [] ≠ value
  | .labelRegex name pattern => labelMatch regex entry name pattern
  | .labelNotRegex name pattern => (labelMatch regex entry name pattern).map (!·)
  | .lineContains needle => return needle <:+: entry.line
  | .lineNotContains needle => return ¬ needle <:+: entry.line
  | .lineRegex pattern => lineMatch regex entry pattern
  | .lineNotRegex pattern => (lineMatch regex entry pattern).map (!·)
  | .lineMatches query => return matchesTerms table entry.line query
  | .lineNotMatches query => return !matchesTerms table entry.line query
  | .and filters => matchesAll entry filters

/-- All filters match, up to the first that does not. -/
def matchesAll (entry : LogEntry) : List LogFilter → Except SemanticError Bool
  | [] => return true
  | f :: filters => do
      if ← f.matches entry then matchesAll entry filters else return false

end

mutual

/-- Source: `logql.rs` `LogFilter::validate` -/
def LogFilter.validate : LogFilter → Except SemanticError Unit
  | .labelRegex _ pattern | .labelNotRegex _ pattern =>
      if (regex (anchored pattern)).isNone then
        .error (.malformed "invalid LogQL label regex".toList)
      else return ()
  | .lineRegex pattern | .lineNotRegex pattern =>
      if (regex pattern).isNone then .error (.malformed "invalid LogQL line regex".toList) else return ()
  | .and filters => validateAll filters
  | _ => return ()

def validateAll : List LogFilter → Except SemanticError Unit
  | [] => return ()
  | f :: filters => do
      f.validate
      validateAll filters

end

/-! ## Range expressions -/

/-- Source: `logql.rs` `LogRangeOp` -/
inductive LogRangeOp
  | countOverTime
  | rate
  deriving DecidableEq

/-- Source: `logql.rs` `LogRangeExpr` -/
structure LogRangeExpr where
  filter : LogFilter
  windowNs : ℕ
  offsetNs : ℕ
  op : LogRangeOp
  grouping : Option Grouping

/-- Source: `logql.rs` `LogSeries` -/
structure LogSeries where
  labels : LabelSet
  samples : List FloatSample
  deriving DecidableEq

/-- Source: `logql.rs` `LogFetchRequest` -/
structure LogFetchRequest where
  bounds : FetchBounds
  filter : LogFilter
  maxEntries : ℕ

/-- Source: `logql.rs` `plan_log_fetch` -/
def planLogFetch (expr : LogRangeExpr) (range : EvalRange) (limits : EvalLimits) :
    Except SemanticError LogFetchRequest :=
  if expr.windowNs = 0 then .error .invalidRange
  else do
    expr.filter.validate regex
    let _ ← range.instants limits
    let endNs := saturatingSub range.endNs expr.offsetNs
    let startNs := saturatingSub (saturatingSub range.startNs expr.offsetNs) expr.windowNs
    let bounds ← FetchBounds.new startNs endNs
    return ⟨bounds, expr.filter, limits.maxSamples⟩

/-- The entries that are counted at an instant, by their labels.
Source: `logql.rs` `eval_log_range_reference`, the loop over the entries -/
def countedAt (expr : LogRangeExpr) (at' : ℤ) (entries : List LogEntry) :
    Except SemanticError (List (LabelSet × Unit)) :=
  let selectionEnd := saturatingSub at' expr.offsetNs
  let selectionStart := saturatingSub selectionEnd expr.windowNs
  flatMapM (fun entry =>
    if inWindow selectionStart selectionEnd entry.timestampNs then do
      if ← expr.filter.matches regex table entry then return [(entry.labels, ())] else return []
    else return []) entries

variable (arith : Arith)

/-- The value of a count. Source: `logql.rs` `eval_log_range_reference` -/
def LogRangeOp.value (windowNs count : ℕ) : LogRangeOp → F64
  | .countOverTime => natAsF64 count
  | .rate => arith.div (natAsF64 count) (arith.div (natAsF64 windowNs) (natAsF64 1000000000))

/-- The values of an instant. Source: `logql.rs` `eval_log_range_reference` -/
def valuesAt (expr : LogRangeExpr) (counted : List (LabelSet × Unit)) : List (LabelSet × F64) :=
  let evaluated := (groupByLabels counted).map fun group =>
    (match expr.grouping with
      | some grouping => grouping.apply group.1
      | none => group.1,
    expr.op.value arith expr.windowNs group.2.length)
  (groupByLabels evaluated).map fun group => (group.1, group.2.foldl arith.add 0)

/-- The values of an instant after what was pushed, within the limits.
Source: `logql.rs` `eval_log_range_reference`, the loop over the values -/
def pushValues (limits : EvalLimits) (at' : ℤ) :
    List (LabelSet × F64) → List (LabelSet × FloatSample) →
      Except SemanticError (List (LabelSet × FloatSample))
  | [], pushed => return pushed
  | (labels, value) :: values, pushed =>
      let known := (pushed.map Prod.fst).dedup
      if limits.maxSeries ≤ known.length ∧ labels ∉ known then
        .error (.limitExceeded "log series".toList)
      else if limits.maxSamples < pushed.length + 1 then
        .error (.limitExceeded "LogQL output samples".toList)
      else pushValues limits at' values (pushed ++ [(labels, ⟨at', value⟩)])

/-- Source: `logql.rs` `eval_log_range_reference`, the loop over the instants -/
def pushInstants (expr : LogRangeExpr) (limits : EvalLimits) (entries : List LogEntry) :
    List ℤ → List (LabelSet × FloatSample) → Except SemanticError (List (LabelSet × FloatSample))
  | [], pushed => return pushed
  | at' :: instants, pushed => do
      let counted ← countedAt regex table expr at' entries
      let pushed ← pushValues limits at' (valuesAt arith expr counted) pushed
      pushInstants expr limits entries instants pushed

/-- Source: `logql.rs` `eval_log_range_reference` -/
def evalLogRangeReference (entries : List LogEntry) (expr : LogRangeExpr) (range : EvalRange)
    (limits : EvalLimits) : Except SemanticError (List LogSeries) :=
  if expr.windowNs = 0 then .error .invalidRange
  else if limits.maxSamples < entries.length then .error (.limitExceeded "log samples".toList)
  else do
    let instants ← range.instants limits
    let pushed ← pushInstants regex table arith expr limits entries instants []
    return (groupByLabels pushed).map fun group => ⟨group.1, group.2⟩

end

end Imbh.Lgtm
