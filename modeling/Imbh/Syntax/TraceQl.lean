import Imbh.Syntax.Query

/-!
# The TraceQL translator

A recursive descent over spanset expressions. From the lowest precedence, the levels are `||`, `&&` and
the structural operators, each read by a loop, and then selectors and parentheses.
-/

namespace Imbh.Syntax.TraceQl

open Lib Lgtm Syntax

variable {source : Text}

/-! ## Selectors -/

/-- The comparison operators, in the order in which they are tried. -/
def compareTokens : List (Text × TraceCompareOp) :=
  [ ("=~".toList, .regex),
    ("!~".toList, .notRegex),
    (">=".toList, .ge),
    ("<=".toList, .le),
    ("!=".toList, .ne),
    ("=".toList, .eq),
    (">".toList, .gt),
    ("<".toList, .lt) ]

/-- Source: `traceql.rs` `parse_compare_operator` -/
def parseCompareOperator : Parse source TraceCompareOp := do
  match ← consumeFirst compareTokens with
  | some op => return op
  | none => failHere .syntaxError "expected TraceQL comparison operator".toList

/-- Source: `traceql.rs` `PredicateTarget` -/
inductive PredicateTarget
  | intrinsic (intrinsic : Intrinsic)
  | attribute (scope : AttributeScope) (key : Text)
  deriving DecidableEq

/-- The names of the intrinsics. -/
def intrinsicNames : List (Text × Intrinsic) :=
  [ ("name".toList, .spanName), ("span:name".toList, .spanName),
    ("duration".toList, .spanDuration), ("span:duration".toList, .spanDuration),
    ("status".toList, .spanStatus), ("span:status".toList, .spanStatus),
    ("statusMessage".toList, .spanStatusMessage), ("span:statusMessage".toList, .spanStatusMessage),
    ("kind".toList, .spanKind), ("span:kind".toList, .spanKind),
    ("childCount".toList, .spanChildCount), ("span:childCount".toList, .spanChildCount),
    ("span:id".toList, .spanId),
    ("trace:id".toList, .traceId),
    ("traceDuration".toList, .traceDuration), ("trace:duration".toList, .traceDuration),
    ("rootServiceName".toList, .traceRootService), ("trace:rootService".toList, .traceRootService),
    ("rootName".toList, .traceRootName), ("trace:rootName".toList, .traceRootName) ]

/-- The prefixes of the scopes, in the order in which they are tried. -/
def scopePrefixes : List (Text × AttributeScope) :=
  [ ("span.".toList, .span),
    ("resource.".toList, .resource),
    ("instrumentation.".toList, .instrumentation),
    ("event.".toList, .event),
    ("link.".toList, .link),
    (".".toList, .span) ]

/-- The scope of a field and the key behind its prefix. -/
def scopeOf (field : Text) : List (Text × AttributeScope) → Option (AttributeScope × Text)
  | [] => none
  | (start, scope) :: prefixes =>
      match start.isPrefixOf? field with
      | some key => some (scope, key)
      | none => scopeOf field prefixes

/-- Source: `traceql.rs` `predicate_target` -/
def predicateTarget (field : Text) (range : SourceRange) : Parse source PredicateTarget :=
  match intrinsicNames.find? fun name => name.1 = field with
  | some (_, intrinsic) => return .intrinsic intrinsic
  | none =>
      match scopeOf field scopePrefixes with
      | none => failAt .unsupported range "attribute scope must be explicit".toList
      | some (scope, key) =>
          if key = [] then failAt .syntaxError range "attribute key is empty".toList
          else return .attribute scope key

/-- A whole number in the range of an `i64` is an integer.
Source: `traceql.rs` `parse_value`, the numbers -/
def numberValue (value : F64) : SemanticValue :=
  if F64.isWhole value && F64.le (intAsF64 (-2 ^ 63)) value && F64.le value (intAsF64 (2 ^ 63 - 1)) then
    .integer (Int64.ofInt (F64.asI64 value))
  else .float value

/-- Source: `traceql.rs` `parse_value`, the words -/
def wordValue (word : Text) : SemanticValue :=
  if word = "nil".toList then .nil
  else if word = "true".toList then .boolean true
  else if word = "false".toList then .boolean false
  else .string word

/-- Source: `traceql.rs` `parse_value` -/
def parseValue (target : PredicateTarget) : Parse source SemanticValue := do
  if target = .intrinsic .spanDuration ∨ target = .intrinsic .traceDuration then
    return .durationNs (← durationNs)
  else if target = .intrinsic .spanChildCount then
    let value ← unsigned
    if value < 2 ^ 63 then return .integer (Int64.ofNat value)
    else failHere .limitExceeded "integer is too large".toList
  else
    skipWs
    let next ← peek
    if next = some '"' then return .string (← quotedString)
    else if next.any fun ch => ch.isDigit || ch = '-' || ch = '+' then return numberValue (← float)
    else
      let (word, _) ← identifier
      return wordValue word

/-- Source: `traceql.rs` `parse_predicate` -/
def parsePredicate : Parse source SpanPredicate := do
  let (field, range) ← identifier
  let operation ← parseCompareOperator
  let target ← predicateTarget field range
  let value ← parseValue target
  match target with
  | .intrinsic intrinsic => return .intrinsic intrinsic operation value
  | .attribute scope key => return .attribute scope key operation value

/-- One predicate behind those before it, and what follows it. -/
def selectorBody (predicates : List SpanPredicate) :
    Parse source (List SpanPredicate ⊕ List SpanPredicate) := do
  let predicate ← parsePredicate
  if ← consume "\x7d".toList then return .inr (predicates ++ [predicate])
  else if ← consume "&&".toList then return .inl (predicates ++ [predicate])
  else failHere .unsupported "T1 selectors support same-span AND only".toList

/-- Source: `traceql.rs` `parse_selector` -/
def parseSelector : Parse source SpansetExpr := do
  expect "\x7b".toList
  if ← consume "\x7d".toList then return .select .all
  else
    let predicates ← loop selectorBody []
    match predicates with
    | [predicate] => return .select predicate
    | predicates => return .select (.and predicates)

/-! ## Expressions -/

/-- The structural operators and whether they unite, in the order in which they are tried. -/
def structuralTokens : List (Text × StructuralOp × Bool) :=
  [ ("&!>>".toList, .notDescendant, true),
    ("&!>".toList, .notChild, true),
    ("&!~".toList, .notSibling, true),
    ("&>>".toList, .descendant, true),
    ("&<<".toList, .ancestor, true),
    ("&>".toList, .child, true),
    ("&<".toList, .parent, true),
    ("&~".toList, .sibling, true),
    ("!>>".toList, .notDescendant, false),
    ("!<<".toList, .notAncestor, false),
    ("!>".toList, .notChild, false),
    ("!<".toList, .notParent, false),
    ("!~".toList, .notSibling, false),
    (">>".toList, .descendant, false),
    ("<<".toList, .ancestor, false),
    (">".toList, .child, false),
    ("<".toList, .parent, false),
    ("~".toList, .sibling, false) ]

/-- One further operand, if there is an operator. -/
def chainRound (operator : Parse source (Option (SpansetExpr → SpansetExpr → SpansetExpr)))
    (operand : Parse source SpansetExpr) (left : SpansetExpr) :
    Parse source (SpansetExpr ⊕ SpansetExpr) := do
  match ← operator with
  | some combine => return .inl (combine left (← operand))
  | none => return .inr left

/-- A level of binary operators: one operand, and further ones as long as there is an operator. -/
def chain (operator : Parse source (Option (SpansetExpr → SpansetExpr → SpansetExpr)))
    (operand : Parse source SpansetExpr) : Parse source SpansetExpr := do
  let left ← operand
  loop (chainRound operator operand) left

/-- Source: `traceql.rs` `parse_structural_operator` -/
def parseStructuralOperator : Parse source (Option (SpansetExpr → SpansetExpr → SpansetExpr)) := do
  match ← consumeFirst structuralTokens with
  | some (op, union) => return some fun left right => .structural left op right union
  | none => return none

/-- Source: `traceql.rs` `parse_structural` -/
def parseStructural (primary : Parse source SpansetExpr) : Parse source SpansetExpr :=
  chain parseStructuralOperator primary

/-- Source: `traceql.rs` `parse_and` -/
def parseAnd (primary : Parse source SpansetExpr) : Parse source SpansetExpr :=
  chain (do if ← consume "&&".toList then return some .and else return none) (parseStructural primary)

/-- Source: `traceql.rs` `parse_or` -/
def parseOr (primary : Parse source SpansetExpr) : Parse source SpansetExpr :=
  chain (do if ← consume "||".toList then return some .or else return none) (parseAnd primary)

/-- Source: `traceql.rs` `parse_primary` -/
def parsePrimary (spanset : Parse source SpansetExpr) : Parse source SpansetExpr := do
  if ← consume "(".toList then
    let expression ← spanset
    expect ")".toList
    return expression
  else parseSelector

/-- The parser at a depth from which so many levels of parentheses are left.
Source: `traceql.rs` `parse_spanset` -/
def parseSpanset : ℕ → Parse source SpansetExpr
  | 0 => failHere .limitExceeded "TraceQL expression nesting exceeds 128".toList
  | room + 1 => parseOr (parsePrimary (parseSpanset room))

/-- The pipeline behind an expression. Source: `traceql.rs` `translate_traceql` -/
def parsePipeline (expression : SpansetExpr) : Parse source SpansetExpr := do
  if ← consume "|".toList then
    let (aggregate, range) ← identifier
    if aggregate ≠ "count".toList then
      failAt .unsupported range "T1 supports only count() spanset pipeline filtering".toList
    else
      expect "(".toList
      expect ")".toList
      let operation ← parseCompareOperator
      if operation = .regex ∨ operation = .notRegex then
        failHere .semanticMismatch "count() cannot be compared with a regex".toList
      else return .count expression operation (← unsigned)
  else return expression

/-- Source: `traceql.rs` `translate_traceql` -/
def parseQuery : Parse source SpansetExpr := do
  let expression ← parseSpanset 128
  let expression ← parsePipeline expression
  finish
  return expression

/-- Source: `traceql.rs` `translate_traceql` -/
def translateTraceql (source : Text) (_context : TranslateContext) : Except Diagnostic TranslatedQuery :=
  translate source (TranslatedQuery.trace <$> parseQuery)

/-! ## Operators in a text -/

/-- The text of an operator. -/
def opText : TraceCompareOp → Text
  | .eq => "=".toList
  | .ne => "!=".toList
  | .gt => ">".toList
  | .ge => ">=".toList
  | .lt => "<".toList
  | .le => "<=".toList
  | .regex => "=~".toList
  | .notRegex => "!~".toList

theorem opText_cons (op : TraceCompareOp) :
    ∃ ch s, opText op = ch :: s ∧ isWordChar ch = false ∧ isWhitespace ch = false := by
  cases op <;> exact ⟨_, _, rfl, by decide, by decide⟩

section

variable {s t rest : Text}

/-- A character with which an operator might go on. -/
def isOpChar (ch : Char) : Bool := ch = '=' || ch = '~'

theorem isOpChar_ascii {ch : Char} (h : isOpChar ch = true) : 33 ≤ ch.toNat ∧ ch.toNat ≤ 126 := by
  simp only [isOpChar, Bool.or_eq_true, decide_eq_true_eq] at h
  rcases h with rfl | rfl <;> decide

theorem reads_compareOperator {op : TraceCompareOp} (h : skip s = opText op ++ rest)
    (hend : Ends isOpChar rest) :
    @Reads source _ parseCompareOperator s op rest := by
  have hnot : ∀ ch, isOpChar ch = true → [ch].isPrefixOf rest = false := by
    intro ch hch
    rcases rest with _ | ⟨x, rest⟩
    · rfl
    · have hne : ch ≠ x := by
        rintro rfl
        rw [hend ch rfl] at hch
        exact absurd hch (by simp)
      simpa [List.isPrefixOf] using hne
  have heq := hnot '=' (by decide)
  have htilde := hnot '~' (by decide)
  have hfind : (compareTokens.find? fun kv => kv.1.isPrefixOf (skip s)) = some (opText op, op) := by
    rw [h]
    cases op <;> simp [compareTokens, opText, List.isPrefixOf, heq, htilde]
  exact (reads_consumeFirst hfind h).bind (Reads.pure op rest)

end

end Imbh.Syntax.TraceQl
