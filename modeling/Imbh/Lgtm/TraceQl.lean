import Mathlib.Data.List.Sort
import Imbh.Lib.Checked
import Imbh.Traces.Query

/-!
# TraceQL

Spanset expressions and their reference evaluator: a leaf selects the spans of a trace that satisfy a
predicate, and the operators combine or count the selected spans, or relate them by parenthood. A set
of span ids is a sorted list.
-/

namespace Imbh.Lgtm

open Lib Imbh.Core Traces List

/-- Source: `common.rs` `SemanticError` -/
inductive SemanticError
  | invalidRange
  | limitExceeded (what : Text)
  | incompatible (what : Text)
  | malformed (what : Text)
  | source (what : Text)
  | duplicateTimestamp (what : Text)
  deriving DecidableEq

/-- Source: `common.rs` `EvalLimits` -/
structure EvalLimits where
  maxEvaluationPoints : ℕ
  maxSeries : ℕ
  maxSamples : ℕ
  maxSpans : ℕ
  maxTraces : ℕ
  maxRecursion : ℕ

/-- Source: `common.rs` `EvalLimits::default` -/
def EvalLimits.default : EvalLimits where
  maxEvaluationPoints := 11000
  maxSeries := 10000
  maxSamples := 1000000
  maxSpans := 100000
  maxTraces := 10000
  maxRecursion := 128

/-! ## Values -/

/-- Source: `traceql.rs` `SemanticValue` -/
inductive SemanticValue
  | nil
  | boolean (b : Bool)
  | integer (i : Int64)
  | float (f : F64)
  | string (s : Text)
  | durationNs (ns : ℕ)
  | bytes (b : Bytes)
  | array (values : List SemanticValue)

mutual

/-- Source: `traceql.rs` `SemanticValue`, its `PartialEq` -/
def SemanticValue.beq : SemanticValue → SemanticValue → Bool
  | .nil, .nil => true
  | .boolean a, .boolean b => a == b
  | .integer a, .integer b => a == b
  | .float a, .float b => F64.eq a b
  | .string a, .string b => decide (a = b)
  | .durationNs a, .durationNs b => decide (a = b)
  | .bytes a, .bytes b => decide (a = b)
  | .array a, .array b => beqList a b
  | _, _ => false

def beqList : List SemanticValue → List SemanticValue → Bool
  | [], [] => true
  | a :: as, b :: bs => a.beq b && beqList as bs
  | _, _ => false

end

/-- Attributes as a map; the last pair of a key counts. Source: `traceql.rs` `TypedAttributes` -/
abbrev TypedAttributes : Type := List (Text × SemanticValue)

/-- Source: `traceql.rs` `TypedAttributes::get` -/
def TypedAttributes.get (a : TypedAttributes) (key : Text) : Option SemanticValue :=
  (a.reverse.find? fun kv => kv.1 = key).map Prod.snd

/-- Source: `traceql.rs` `AttributeScope` -/
inductive AttributeScope
  | span
  | resource
  | instrumentation
  | event
  | link
  deriving DecidableEq

/-- Source: `traceql.rs` `TraceCompareOp` -/
inductive TraceCompareOp
  | eq
  | ne
  | gt
  | ge
  | lt
  | le
  | regex
  | notRegex
  deriving DecidableEq

/-- Source: `traceql.rs` `Intrinsic` -/
inductive Intrinsic
  | spanName
  | spanDuration
  | spanStatus
  | spanStatusMessage
  | spanKind
  | spanChildCount
  | spanId
  | traceId
  | traceDuration
  | traceRootService
  | traceRootName
  deriving DecidableEq

/-- Source: `traceql.rs` `SemanticSpan` -/
structure SemanticSpan where
  spanId : SpanId
  parentSpanId : Option SpanId
  name : Text
  status : Text
  statusMessage : Option Text
  kind : Text
  service : Option Text
  startTimeNs : ℤ
  durationNs : ℕ
  attributes : TypedAttributes
  resource : TypedAttributes
  instrumentation : TypedAttributes
  events : List TypedAttributes
  links : List TypedAttributes

/-- Source: `traceql.rs` `SpanPredicate` -/
inductive SpanPredicate
  | all
  | and (preds : List SpanPredicate)
  | nameEq (value : Text)
  | statusEq (value : Text)
  | kindEq (value : Text)
  | duration (op : TraceCompareOp) (valueNs : ℕ)
  | spanAttrEq (key value : Text)
  | intrinsic (intrinsic : Intrinsic) (op : TraceCompareOp) (value : SemanticValue)
  | resourceAttrEq (key value : Text)
  | attribute (scope : AttributeScope) (key : Text) (op : TraceCompareOp) (value : SemanticValue)

/-- Source: `traceql.rs` `StructuralOp` -/
inductive StructuralOp
  | child
  | parent
  | descendant
  | ancestor
  | sibling
  | notChild
  | notParent
  | notDescendant
  | notAncestor
  | notSibling
  deriving DecidableEq

/-- Source: `traceql.rs` `SpansetExpr` -/
inductive SpansetExpr
  | select (predicate : SpanPredicate)
  | and (left right : SpansetExpr)
  | or (left right : SpansetExpr)
  | structural (left : SpansetExpr) (op : StructuralOp) (right : SpansetExpr) (union : Bool)
  | countAtLeast (inner : SpansetExpr) (count : ℕ)
  | count (input : SpansetExpr) (op : TraceCompareOp) (value : ℕ)

/-- Source: `traceql.rs` `SemanticTrace` -/
structure SemanticTrace where
  traceId : TraceId
  spans : List SemanticSpan
  rootService : Option Text
  rootName : Option Text
  startTimeNs : ℤ
  durationNs : ℕ

/-! ## Comparisons -/

/-- The order of two values of one kind. Source: `traceql.rs` `semantic_partial_cmp` -/
def semanticPartialCmp : Option SemanticValue → SemanticValue → Option Ordering
  | some (.integer a), .integer b => some (compare a.toInt b.toInt)
  | some (.integer a), .float b => F64.partialCmp (intAsF64 a.toInt) b
  | some (.float a), .integer b => F64.partialCmp a (intAsF64 b.toInt)
  | some (.float a), .float b => F64.partialCmp a b
  | some (.string a), .string b => some (compare a b)
  | some (.durationNs a), .durationNs b => some (compare a b)
  | _, _ => none

/-- Whether two values are equal. Source: `traceql.rs` `compare_value` -/
def semanticEq : Option SemanticValue → SemanticValue → Bool
  | none, .nil => true
  | some .nil, .nil => true
  | some (.integer a), .float b => F64.eq (intAsF64 a.toInt) b
  | some (.float a), .integer b => F64.eq a (intAsF64 b.toInt)
  | some a, b => a.beq b
  | none, _ => false

/-- Whether an order is what the operator asks for. Source: `traceql.rs` `compare_value` -/
def ordered : TraceCompareOp → Option Ordering → Bool
  | .gt, some .gt => true
  | .ge, some .gt | .ge, some .eq => true
  | .lt, some .lt => true
  | .le, some .lt | .le, some .eq => true
  | _, _ => false

section

-- The regex library: the matcher of a pattern, or none where the pattern is malformed.
variable (regex : Text → Option (Text → Bool))

/-- A comparison of a value that is not an array. Source: `traceql.rs` `compare_value` -/
def compareScalar (actual : Option SemanticValue) (op : TraceCompareOp) (expected : SemanticValue) :
    Except SemanticError Bool :=
  match actual, expected with
  | none, .nil =>
      if op = .regex ∨ op = .notRegex then .ok false
      else .ok (match op with | .eq => true | _ => false)
  | none, _ => .ok false
  | some a, e =>
      match op with
      | .regex | .notRegex =>
          match a, e with
          | .string s, .string pattern =>
              match regex ("^(?:".toList ++ pattern ++ ")$".toList) with
              | none => .error (.malformed "invalid TraceQL regex".toList)
              | some isMatch => .ok (if op = .regex then isMatch s else !isMatch s)
          | _, _ => .ok false
      | .eq => .ok (semanticEq (some a) e)
      | .ne => .ok (!semanticEq (some a) e)
      | op => .ok (ordered op (semanticPartialCmp (some a) e))

/-- The comparison of the elements of an array, and whether its result is negated. -/
def elementOp : TraceCompareOp → TraceCompareOp × Bool
  | .ne => (.eq, true)
  | .notRegex => (.regex, true)
  | op => (op, false)

mutual

/-- Source: `traceql.rs` `compare_value` -/
def compareSome (expected : SemanticValue) : SemanticValue → TraceCompareOp → Except SemanticError Bool
  | .array values, op => do
      let any ← compareAny expected values (elementOp op).1
      return if (elementOp op).2 then !any else any
  | .nil, op => compareScalar regex (some .nil) op expected
  | .boolean b, op => compareScalar regex (some (.boolean b)) op expected
  | .integer i, op => compareScalar regex (some (.integer i)) op expected
  | .float f, op => compareScalar regex (some (.float f)) op expected
  | .string s, op => compareScalar regex (some (.string s)) op expected
  | .durationNs ns, op => compareScalar regex (some (.durationNs ns)) op expected
  | .bytes b, op => compareScalar regex (some (.bytes b)) op expected

/-- Whether the comparison holds of an element, up to the first of which it does. -/
def compareAny (expected : SemanticValue) : List SemanticValue → TraceCompareOp →
    Except SemanticError Bool
  | [], _ => return false
  | v :: values, op => do
      if ← compareSome expected v op then return true else compareAny expected values op

end

/-- Source: `traceql.rs` `compare_value` -/
def compareValue (actual : Option SemanticValue) (op : TraceCompareOp) (expected : SemanticValue) :
    Except SemanticError Bool :=
  match actual with
  | none => compareScalar regex none op expected
  | some v => compareSome regex expected v op

/-! ## Predicates -/

/-- Two hexadecimal digits for each byte. Source: `ids.rs` `to_hex` -/
def toHex (b : Bytes) : Text :=
  b.flatMap fun x => [Nat.digitChar (x.toNat / 16), Nat.digitChar (x.toNat % 16)]

/-- A count as an integer. -/
def countAsInteger (n : ℕ) (what : String) : Except SemanticError SemanticValue :=
  if n < 2 ^ 63 then .ok (.integer (Int64.ofNat n)) else .error (.limitExceeded what.toList)

/-- What an intrinsic of the trace needs. -/
def needTrace (trace : Option SemanticTrace) : Except SemanticError SemanticTrace :=
  match trace with
  | some t => .ok t
  | none => .error (.incompatible "trace intrinsic requires complete-trace evaluation".toList)

/-- Source: `traceql.rs` `intrinsic_value` -/
def intrinsicValue (intrinsic : Intrinsic) (span : SemanticSpan) (trace : Option SemanticTrace)
    (spans : List SemanticSpan) : Except SemanticError (Option SemanticValue) :=
  match intrinsic with
  | .spanName => return some (.string span.name)
  | .spanDuration => return some (.durationNs span.durationNs)
  | .spanStatus => return some (.string span.status)
  | .spanStatusMessage => return span.statusMessage.map .string
  | .spanKind => return some (.string span.kind)
  | .spanChildCount => do
      let n ← countAsInteger (spans.countP fun c => c.parentSpanId = some span.spanId)
        "TraceQL child count"
      return some n
  | .spanId => return some (.string (toHex span.spanId))
  | .traceId => do
      let t ← needTrace trace
      return some (.string (toHex t.traceId))
  | .traceDuration => do
      let t ← needTrace trace
      return some (.durationNs t.durationNs)
  | .traceRootService => do
      let t ← needTrace trace
      return t.rootService.map .string
  | .traceRootName => do
      let t ← needTrace trace
      return t.rootName.map .string

/-- Whether a comparison holds of an item, up to the first of which it does. -/
def anyItem (key : Text) (op : TraceCompareOp) (value : SemanticValue) :
    List TypedAttributes → Except SemanticError Bool
  | [] => return false
  | item :: items => do
      if ← compareValue regex (item.get key) op value then return true
      else anyItem key op value items

mutual

/-- Source: `traceql.rs` `predicate_matches` -/
def predicateMatches (span : SemanticSpan) (trace : Option SemanticTrace) (spans : List SemanticSpan) :
    SpanPredicate → Except SemanticError Bool
  | .all => return true
  | .and preds => allMatch span trace spans preds
  | .nameEq value => return decide (span.name = value)
  | .statusEq value => return decide (span.status = value)
  | .kindEq value => return decide (span.kind = value)
  | .duration op valueNs =>
      compareValue regex (some (.durationNs span.durationNs)) op (.durationNs valueNs)
  | .intrinsic i op value => do
      let actual ← intrinsicValue i span trace spans
      compareValue regex actual op value
  | .spanAttrEq key value => compareValue regex (span.attributes.get key) .eq (.string value)
  | .resourceAttrEq key value => compareValue regex (span.resource.get key) .eq (.string value)
  | .attribute scope key op value =>
      match scope with
      | .span => compareValue regex (span.attributes.get key) op value
      | .resource => compareValue regex (span.resource.get key) op value
      | .instrumentation => compareValue regex (span.instrumentation.get key) op value
      | .event => anyItem regex key op value span.events
      | .link => anyItem regex key op value span.links

def allMatch (span : SemanticSpan) (trace : Option SemanticTrace) (spans : List SemanticSpan) :
    List SpanPredicate → Except SemanticError Bool
  | [] => return true
  | p :: preds => do
      if ← predicateMatches span trace spans p then allMatch span trace spans preds else return false

end

/-! ## Sets of spans -/

/-- A sorted list without duplicates. Source: `BTreeSet<SpanId>` -/
abbrev IdSet : Type := List SpanId

def IdSet.insert (s : IdSet) (id : SpanId) : IdSet :=
  if id ∈ s then s else s.orderedInsert (· ≤ ·) id

def IdSet.union (a b : IdSet) : IdSet := b.foldl IdSet.insert a

/-- The span of an id, the last one if there are several. -/
def findSpan (spans : List SemanticSpan) (id : SpanId) : Option SemanticSpan :=
  spans.reverse.find? fun s => s.spanId = id

/-- The walk from a parent upward, the ids that it has seen being `seen`.
Source: `traceql.rs` `has_ancestor` -/
def hasAncestorFrom (spans : List SemanticSpan) (ancestors : IdSet) (seen : List SpanId)
    (parent : Option SpanId) : Except SemanticError Bool :=
  match parent with
  | none => .ok false
  | some id =>
      if _hseen : id ∈ seen then .error (.malformed "cycle in span parent relationships".toList)
      else if id ∈ ancestors then .ok true
      else
        match _hspan : findSpan spans id with
        | none => .ok false
        | some span => hasAncestorFrom spans ancestors (id :: seen) span.parentSpanId
  termination_by (spans.filter fun s => s.spanId ∉ seen).length
  decreasing_by
    have hmem : span ∈ spans := mem_reverse.mp (mem_of_find?_eq_some _hspan)
    have hid : span.spanId = id := by simpa using find?_some _hspan
    have hsub : (spans.filter fun s => s.spanId ∉ id :: seen) =
        (spans.filter fun s => s.spanId ∉ seen).filter fun s => s.spanId ≠ id := by
      rw [filter_filter]
      apply filter_congr
      intro s _
      simp [mem_cons, not_or]
    rw [hsub]
    apply length_filter_lt_length_iff_exists.mpr
    exact ⟨span, mem_filter.mpr ⟨hmem, by simpa [hid] using _hseen⟩, by simp [hid]⟩

/-- Source: `traceql.rs` `has_ancestor` -/
def hasAncestor (spans : List SemanticSpan) (span : SemanticSpan) (ancestors : IdSet) :
    Except SemanticError Bool :=
  hasAncestorFrom spans ancestors [] span.parentSpanId

/-- The positive operator, and whether it is negated. Source: `traceql.rs` `structural` -/
def StructuralOp.positive : StructuralOp → StructuralOp × Bool
  | .notChild => (.child, true)
  | .notParent => (.parent, true)
  | .notDescendant => (.descendant, true)
  | .notAncestor => (.ancestor, true)
  | .notSibling => (.sibling, true)
  | op => (op, false)

/-- Whether a span of the left set has the span as an ancestor, up to the first that has. -/
def anyHasAncestor (spans : List SemanticSpan) (rightId : SpanId) : IdSet → Except SemanticError Bool
  | [] => return false
  | leftId :: left =>
      match findSpan spans leftId with
      | none => anyHasAncestor spans rightId left
      | some span => do
          if ← hasAncestor spans span [rightId] then return true
          else anyHasAncestor spans rightId left

/-- Whether a span of the right set is related to one of the left set.
Source: `traceql.rs` `structural`, the loop body -/
def related (spans : List SemanticSpan) (left : IdSet) (op : StructuralOp) (rightId : SpanId)
    (candidate : SemanticSpan) : Except SemanticError Bool :=
  match op with
  | .child => return candidate.parentSpanId.any fun parent => parent ∈ left
  | .parent =>
      return left.any fun leftId =>
        ((findSpan spans leftId).bind SemanticSpan.parentSpanId) = some rightId
  | .descendant => hasAncestor spans candidate left
  | .ancestor => anyHasAncestor spans rightId left
  | .sibling =>
      return candidate.parentSpanId.any fun parent => left.any fun leftId =>
        leftId ≠ rightId ∧ ((findSpan spans leftId).bind SemanticSpan.parentSpanId) = some parent
  | _ => return false

/-- Source: `traceql.rs` `structural` -/
def structural (spans : List SemanticSpan) (left : IdSet) (op : StructuralOp) :
    IdSet → Except SemanticError IdSet
  | [] => return []
  | rightId :: right =>
      match findSpan spans rightId with
      | none => structural spans left op right
      | some candidate => do
          let matched ← related spans left op.positive.1 rightId candidate
          let rest ← structural spans left op right
          return if (if op.positive.2 then !matched else matched) then rightId :: rest else rest

/-! ## Expressions -/

/-- The spans that satisfy a predicate. -/
def selectSpans (trace : Option SemanticTrace) (spans : List SemanticSpan) (predicate : SpanPredicate) :
    List SemanticSpan → IdSet → Except SemanticError IdSet
  | [], selected => return selected
  | span :: rest, selected => do
      if ← predicateMatches regex span trace spans predicate then
        selectSpans trace spans predicate rest (selected.insert span.spanId)
      else selectSpans trace spans predicate rest selected

/-- Source: `traceql.rs` `eval` -/
def eval (spans : List SemanticSpan) (trace : Option SemanticTrace) (limits : EvalLimits) :
    SpansetExpr → ℕ → Except SemanticError IdSet
  | expr, depth =>
    if limits.maxRecursion ≤ depth then
      .error (.limitExceeded "trace expression recursion".toList)
    else
      match expr with
      | .select predicate => selectSpans regex trace spans predicate spans []
      | .and left right => do
          let l ← eval spans trace limits left (depth + 1)
          let r ← eval spans trace limits right (depth + 1)
          return if l = [] ∨ r = [] then [] else l.union r
      | .or left right => do
          let l ← eval spans trace limits left (depth + 1)
          let r ← eval spans trace limits right (depth + 1)
          return l.union r
      | .countAtLeast inner count => do
          let selected ← eval spans trace limits inner (depth + 1)
          return if count ≤ selected.length then selected else []
      | .count input op value =>
          if op = .regex ∨ op = .notRegex then
            .error (.malformed "TraceQL count does not support regex comparison".toList)
          else do
            let selected ← eval spans trace limits input (depth + 1)
            let actual ← countAsInteger selected.length "TraceQL spanset count"
            let expected ← countAsInteger value "TraceQL spanset count"
            if ← compareValue regex (some actual) op expected then return selected else return []
      | .structural left op right union => do
          let l ← eval spans trace limits left (depth + 1)
          let r ← eval spans trace limits right (depth + 1)
          let matched ← structural spans l op r
          return if union then l.union matched else matched

/-- Source: `traceql.rs` `eval_trace_reference` -/
def evalTraceReference (trace : SemanticTrace) (expr : SpansetExpr) (limits : EvalLimits) :
    Except SemanticError (Option (List Text)) :=
  if limits.maxSpans < trace.spans.length then .error (.limitExceeded "spans".toList)
  else if (trace.spans.map SemanticSpan.spanId).Nodup then do
    let selected ← eval regex trace.spans (some trace) limits expr 0
    return if selected = [] then none else some (selected.map toHex)
  else .error (.malformed "duplicate span id".toList)

end

/-! ## What an evaluation selects -/

variable {spans : List SemanticSpan}

/-- No walk ends in an empty set. -/
theorem hasAncestorFrom_nil {seen : List SpanId} {parent : Option SpanId}
    (h : hasAncestorFrom spans [] seen parent = .ok true) : False := by
  fun_induction hasAncestorFrom spans [] seen parent with
  | case1 => exact absurd h (by simp)
  | case2 => exact absurd h (by simp)
  | case3 seen id _ hid => exact absurd hid not_mem_nil
  | case4 => exact absurd h (by simp)
  | case5 seen id _ _ span _ ih => exact ih h

/-- No span is related to one of an empty set. -/
theorem related_nil {op : StructuralOp} {rightId : SpanId} {candidate : SemanticSpan}
    (h : related spans [] op rightId candidate = .ok true) : False := by
  unfold related at h
  split at h
  case h_3 => exact hasAncestorFrom_nil h
  case h_4 => exact absurd (Except.ok.inj h) (by simp)
  all_goals exact absurd (Except.ok.inj h) (by cases candidate.parentSpanId <;> simp)

/-- What a relation selects comes from its right side. -/
theorem structural_subset {left : IdSet} {op : StructuralOp} {right out : IdSet}
    (h : structural spans left op right = .ok out) : ∀ id ∈ out, id ∈ right := by
  induction right generalizing out with
  | nil =>
    intro id hid
    exact (Except.ok.inj h) ▸ hid
  | cons rightId right ih =>
    intro id hid
    unfold structural at h
    split at h
    · exact mem_cons_of_mem _ (ih h id hid)
    · obtain ⟨matched, _, h⟩ := bind_eq_ok.mp h
      obtain ⟨rest, hrest, h⟩ := bind_eq_ok.mp h
      rw [← Except.ok.inj h] at hid
      generalize (if op.positive.2 then !matched else matched) = keep at hid
      rcases keep with _ | _
      · exact mem_cons_of_mem _ (ih hrest id hid)
      · rcases mem_cons.mp hid with rfl | hid
        · exact mem_cons_self
        · exact mem_cons_of_mem _ (ih hrest id hid)

/-- A relation that is not negated needs a span on its left side. -/
theorem structural_left {op : StructuralOp} {right out : IdSet} (hop : op.positive.2 = false)
    (h : structural spans [] op right = .ok out) : out = [] := by
  induction right generalizing out with
  | nil => exact (Except.ok.inj h).symm
  | cons rightId right ih =>
    unfold structural at h
    split at h
    · exact ih h
    · obtain ⟨matched, hmatched, h⟩ := bind_eq_ok.mp h
      obtain ⟨rest, hrest, h⟩ := bind_eq_ok.mp h
      rw [← Except.ok.inj h, hop, if_neg Bool.false_ne_true]
      rcases matched with _ | _
      · exact ih hrest
      · exact (related_nil hmatched).elim

section

variable {regex : Text → Option (Text → Bool)}

/-- A value that is not an array is compared as it is. -/
theorem compareValue_scalar {v : SemanticValue} (h : ∀ vs, v ≠ .array vs) (op : TraceCompareOp)
    (expected : SemanticValue) :
    compareValue regex (some v) op expected = compareScalar regex (some v) op expected := by
  unfold compareValue
  rcases v with _ | b | i | f | t | ns | b | vs
  case array => exact absurd rfl (h vs)
  all_goals simp only [compareSome]

/-- A value that is no array is equal to a string only if it is that string. -/
theorem compareValue_string {a : Option SemanticValue} {value : Text}
    (harray : ∀ vs, a ≠ some (.array vs))
    (h : compareValue regex a .eq (.string value) = .ok true) : a = some (.string value) := by
  rcases a with _ | v
  · exact absurd (Except.ok.inj h) (by simp)
  · rw [compareValue_scalar fun vs hv => harray vs (hv ▸ rfl)] at h
    have heq : semanticEq (some v) (.string value) = true := Except.ok.inj h
    rcases v with _ | b | i | f | t | ns | b | vs
    case string =>
      have ht : t = value := by simpa [semanticEq, SemanticValue.beq] using heq
      rw [ht]
    all_goals exact absurd heq (by simp [semanticEq, SemanticValue.beq])

/-- What the order of a value and an integer is, where the comparison holds. -/
theorem compareValue_integer {a : Option SemanticValue} {op : TraceCompareOp} {n : Int64}
    (harray : ∀ vs, a ≠ some (.array vs)) (hop : op ≠ .ne ∧ op ≠ .regex ∧ op ≠ .notRegex)
    (h : compareValue regex a op (.integer n) = .ok true) :
    ∃ o, semanticPartialCmp a (.integer n) = some o ∧
      if op = .eq then o = .eq else ordered op (some o) = true := by
  rcases a with _ | v
  · exact absurd (Except.ok.inj h) (by simp)
  · rw [compareValue_scalar fun vs hv => harray vs (hv ▸ rfl)] at h
    by_cases heq : op = .eq
    · subst heq
      have hval : semanticEq (some v) (.integer n) = true := Except.ok.inj h
      simp only [if_true]
      rcases v with _ | b | i | f | t | ns | b | vs
      case integer =>
        have hi : i = n := by simpa [semanticEq, SemanticValue.beq] using hval
        exact ⟨.eq, by rw [hi, semanticPartialCmp, compare_eq_iff_eq.mpr rfl], rfl⟩
      case float => exact ⟨.eq, of_decide_eq_true hval, rfl⟩
      all_goals exact absurd hval (by simp [semanticEq, SemanticValue.beq])
    · have hord : ordered op (semanticPartialCmp (some v) (.integer n)) = true := by
        rcases op with _ | _ | _ | _ | _ | _ | _ | _
        case eq => exact absurd rfl heq
        case ne => exact absurd rfl hop.1
        case regex => exact absurd rfl hop.2.1
        case notRegex => exact absurd rfl hop.2.2
        all_goals exact Except.ok.inj h
      rcases hcmp : semanticPartialCmp (some v) (.integer n) with _ | o
      · rw [hcmp] at hord
        exact absurd hord (by cases op <;> simp [ordered])
      · refine ⟨o, rfl, ?_⟩
        rw [if_neg heq, ← hcmp]
        exact hord

/-- A selected span satisfies the predicate. -/
theorem mem_selectSpans {trace : Option SemanticTrace} {predicate : SpanPredicate} {l : List SemanticSpan}
    {selected out : IdSet} (h : selectSpans regex trace spans predicate l selected = .ok out) :
    ∀ id ∈ out, id ∈ selected ∨
      ∃ s ∈ l, predicateMatches regex s trace spans predicate = .ok true := by
  induction l generalizing selected with
  | nil =>
    intro id hid
    exact .inl ((Except.ok.inj h) ▸ hid)
  | cons s l ih =>
    intro id hid
    obtain ⟨found, hfound, h⟩ := bind_eq_ok.mp h
    rcases found with _ | _
    · rcases ih h id hid with hsel | ⟨t, ht, hmatch⟩
      · exact .inl hsel
      · exact .inr ⟨t, mem_cons_of_mem _ ht, hmatch⟩
    · exact .inr ⟨s, mem_cons_self, hfound⟩

end

end Imbh.Lgtm
