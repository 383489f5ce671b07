import Imbh.Lgtm.TraceQl

/-!
# Candidate filters of a TraceQL query

From an expression, conditions are taken that one span of each matching trace should satisfy, and
storage is asked only for the traces with such a span. The evaluator and the storage read the same
spans in two ways: as typed attributes, and as columns with the JSON text.
-/

namespace Imbh.Lgtm

open Lib Imbh.Core Traces List Option

/-! ## Spans as the evaluator reads them -/

mutual

/-- Source: `source.rs` `semantic_value` -/
def semanticValue : AnyValue → Option SemanticValue
  | .null => some .nil
  | .str s => some (.string s)
  | .int i => some (.integer i)
  | .double d => some (.float d)
  | .bool b => some (.boolean b)
  | .bytes b => some (.bytes b)
  | .array items => some (.array (semanticValues items))
  | .map _ => none

def semanticValues : List AnyValue → List SemanticValue
  | [] => []
  | v :: vs => (semanticValue v).toList ++ semanticValues vs

end

/-- Source: `source.rs` `typed_attributes` -/
def typedAttributes (attributes : List (Text × AnyValue)) : TypedAttributes :=
  attributes.filterMap fun kv => (semanticValue kv.2).map fun v => (kv.1, v)

/-- An event or a link; its attributes are merged with its other fields. -/
def typedScopedItem : AnyValue → Option TypedAttributes
  | .map fields => some (fields.flatMap fun kv =>
      if kv.1 = "attributes".toList then
        match kv.2 with
        | .map attributes => typedAttributes attributes
        | _ => []
      else typedAttributes [kv])
  | _ => none

section

variable (reader : JsonReader)

/-- Source: `source.rs` `typed_scoped_items` -/
def typedScopedItems (json : Option Text) : List TypedAttributes :=
  match json.bind (parse reader) with
  | some (.array items) => items.filterMap typedScopedItem
  | _ => []

variable {reader}

/-- Source: `source.rs` `semantic_trace`, `traces.rs` `materialize_spans` -/
def semanticSpan (s : StoredSpan reader) : SemanticSpan where
  spanId := s.spanId
  parentSpanId := s.parentSpanId
  name := s.name
  status := s.statusCode
  statusMessage := s.statusMessage
  kind := s.kind
  service := s.service
  startTimeNs := s.startTime
  durationNs := s.durationNs
  attributes := typedAttributes (fromCanonicalJson reader s.attributes)
  resource := typedAttributes (fromCanonicalJson reader s.resource)
  instrumentation := typedAttributes (fromCanonicalJson reader s.scope)
  events := typedScopedItems reader s.events
  links := typedScopedItems reader s.links

/-- Source: `source.rs` `semantic_trace` -/
def semanticTrace (t : StoredTrace reader) : SemanticTrace where
  traceId := t.traceId
  spans := t.spans.map semanticSpan
  rootService := t.root.bind StoredSpan.service
  rootName := t.root.map StoredSpan.name
  startTimeNs := t.startTime
  durationNs := t.durationNs

end

/-! ## Filters -/

/-- Source: `traceql.rs` `SpanCandidateFilter` -/
inductive SpanCandidateFilter
  | name (value : Text)
  | status (value : Text)
  | kind (value : Text)
  | durationGe (ns : ℕ)
  | durationLe (ns : ℕ)
  | attrEq (key value : Text)
  | attrNum (key : Text) (op : NumOp) (value : Int64)

/-- Source: `traceql.rs` `push_numeric_attr` -/
def pushNumericAttr (key : Text) (op : TraceCompareOp) (value : Int64) : List SpanCandidateFilter :=
  if 2 ^ 53 ≤ value.toInt.natAbs then []
  else
    match op with
    | .gt => [.attrNum key .gt value]
    | .ge => [.attrNum key .ge value]
    | .lt => [.attrNum key .lt value]
    | .le => [.attrNum key .le value]
    | .eq => [.attrNum key .ge value, .attrNum key .le value]
    | .ne | .regex | .notRegex => []

/-- Source: `traceql.rs` `push_predicate` -/
def pushAttribute : AttributeScope → Text → TraceCompareOp → SemanticValue → List SpanCandidateFilter
  | .span, key, .eq, .string value => [.attrEq key value]
  | .span, key, op, .integer value => pushNumericAttr key op value
  | _, _, _, _ => []

mutual

/-- Source: `traceql.rs` `push_predicate` -/
def pushPredicate : SpanPredicate → List SpanCandidateFilter
  | .all => []
  | .and preds => pushPredicates preds
  | .nameEq value => [.name value]
  | .statusEq value => [.status value]
  | .kindEq value => [.kind value]
  | .duration op valueNs =>
      match op with
      | .gt | .ge => [.durationGe valueNs]
      | .lt | .le => [.durationLe valueNs]
      | .eq => [.durationGe valueNs, .durationLe valueNs]
      | .ne | .regex | .notRegex => []
  | .spanAttrEq key value => [.attrEq key value]
  | .attribute scope key op value => pushAttribute scope key op value
  | .intrinsic _ _ _ | .resourceAttrEq _ _ => []

def pushPredicates : List SpanPredicate → List SpanCandidateFilter
  | [] => []
  | p :: preds => pushPredicate p ++ pushPredicates preds

end

/-- Source: `traceql.rs` `candidate_filters` -/
def candidateFilters : SpansetExpr → List SpanCandidateFilter
  | .select predicate => pushPredicate predicate
  | .and left right | .structural left _ right _ =>
      match candidateFilters left with
      | [] => candidateFilters right
      | filters => filters
  | .countAtLeast inner count => if 1 ≤ count then candidateFilters inner else []
  | .count input op value =>
      if 1 ≤ value ∧ (op = .ge ∨ op = .gt ∨ op = .eq) then candidateFilters input else []
  | .or _ _ => []

/-- Source: `source.rs` `build_trace_query`, the loop body -/
def addFilter (q : TraceQuery) : SpanCandidateFilter → TraceQuery
  | .name value => { q with name := some value }
  | .status value => { q with status := some value }
  | .kind value => { q with kind := some value }
  | .durationGe ns => { q with minDurationNs := some ns }
  | .durationLe ns => { q with maxDurationNs := some ns }
  | .attrEq key value => { q with attrEq := q.attrEq ++ [(key, value)] }
  | .attrNum key op n => { q with attrNum := q.attrNum ++ [(key, op, intAsF64 n.toInt)] }

/-- Source: `traceql.rs` `TraceFetchRequest` -/
structure TraceFetchRequest where
  bounds : TimeRange
  maxTraces : ℕ
  maxSpans : ℕ
  candidate : List SpanCandidateFilter

/-- Source: `traceql.rs` `plan_trace_fetch` -/
def planTraceFetch (bounds : TimeRange) (limits : EvalLimits) (expr : SpansetExpr) :
    Except SemanticError TraceFetchRequest :=
  if bounds.stop < bounds.start then .error .invalidRange
  else .ok
    { bounds := bounds
      maxTraces := limits.maxTraces
      maxSpans := limits.maxSpans
      candidate := candidateFilters expr }

/-- Source: `source.rs` `build_trace_query` -/
def buildTraceQuery (request : TraceFetchRequest) : TraceQuery :=
  request.candidate.foldl addFilter
    { TraceQuery.new with
      traceStartRange := some request.bounds
      traceStartEndInclusive := true
      limit := min (request.maxTraces + 1) (2 ^ 64 - 1) }

theorem foldl_addFilter_limit (filters : List SpanCandidateFilter) (q : TraceQuery) :
    (filters.foldl addFilter q).limit = q.limit := by
  induction filters generalizing q with
  | nil => rfl
  | cons f filters ih =>
    rw [foldl_cons, ih]
    cases f <;> rfl

/-! ## What storage asks of a span -/

variable {f : SpanCandidateFilter} {op : TraceCompareOp}

section

variable {reader : JsonReader} (engine : SqlEngine) (promoted : List Text)

/-- The storage condition of a filter. -/
def SpanCandidateFilter.holds (s : StoredSpan reader) : SpanCandidateFilter → Bool
  | .name value => decide (s.name = value)
  | .status value => decide (s.statusCode = value)
  | .kind value => decide (s.kind = value)
  | .durationGe ns => decide (ns ≤ s.durationNs)
  | .durationLe ns => decide (s.durationNs ≤ ns)
  | .attrEq key value => decide (attrField promoted key s = some value)
  | .attrNum key op n =>
      (attrNumField engine promoted key s).any fun v => op.holds v (sqlLiteral (intAsF64 n.toInt))

variable {engine promoted}

variable {s : StoredSpan reader}

/-- A filter adds its condition, in the place of an earlier one on the same column. -/
theorem matchesSpan_addFilter {q : TraceQuery} (hq : q.matchesSpan engine promoted s = true)
    (hf : f.holds engine promoted s = true) : (addFilter q f).matchesSpan engine promoted s = true := by
  unfold TraceQuery.matchesSpan TraceQuery.spanConditions at hq ⊢
  simp only [flatten_cons, flatten_nil, all_append, Bool.and_eq_true] at hq ⊢
  rcases f with _ | _ | _ | _ | _ | _ | _ <;>
    simp only [addFilter, SpanCandidateFilter.holds, toList_some, map_append, map_cons,
      map_nil, all_append, all_cons, all_nil, Bool.and_true, Bool.and_eq_true]
      at hq hf ⊢ <;>
    simp only [hq, hf, and_self]

theorem matchesSpan_foldl {filters : List SpanCandidateFilter} (hf : ∀ f ∈ filters, f.holds engine promoted s = true)
    {q : TraceQuery} (hq : q.matchesSpan engine promoted s = true) :
    (filters.foldl addFilter q).matchesSpan engine promoted s = true := by
  induction filters generalizing q with
  | nil => exact hq
  | cons f filters ih =>
    apply ih fun f' hf' => hf f' (mem_cons_of_mem _ hf')
    exact matchesSpan_addFilter hq (hf f mem_cons_self)

/-- A span that satisfies all filters is one that the query asks for. -/
theorem matchesSpan_buildTraceQuery {request : TraceFetchRequest}
    (hf : ∀ f ∈ request.candidate, f.holds engine promoted s = true) :
    (buildTraceQuery request).matchesSpan engine promoted s = true := by
  apply matchesSpan_foldl hf
  simp only [TraceQuery.matchesSpan, TraceQuery.spanConditions, TraceQuery.new, toList_none,
    map_nil, flatten_cons, flatten_nil, append_nil, all_nil]

end

/-! ## Plain attributes -/

section

variable {reader : JsonReader}

/-- Storage reads at a key what the evaluator reads: the key is not that of the service column, the
value is that of the first pair, and it is no array. -/
structure PlainAt (s : StoredSpan reader) (key : Text) : Prop where
  not_builtin : builtinColumn key = false
  first : ∀ v, (semanticSpan s).attributes.get key = some v →
    (getAttr (fromCanonicalJson reader s.attributes) key).bind semanticValue = some v
  not_array : ∀ vs, (semanticSpan s).attributes.get key ≠ some (.array vs)

def negativeZero : F64 := BitVec.ofNat 64 (2 ^ 63)

/-- A filter reads a plain attribute, which is not the negative zero where it is to be at least 0. -/
def SpanCandidateFilter.Plain (s : StoredSpan reader) : SpanCandidateFilter → Prop
  | .attrEq key _ => PlainAt s key
  | .attrNum key op n => PlainAt s key ∧
      (op = .ge → n = 0 → (semanticSpan s).attributes.get key ≠ some (.float negativeZero))
  | _ => True

theorem semanticValue_string {v : AnyValue} {t : Text} (h : semanticValue v = some (.string t)) :
    v = .str t := by
  rcases v with _ | u | i | d | b | b | vs | es <;>
    simp only [semanticValue, some.injEq, SemanticValue.string.injEq, reduceCtorEq] at h
  rw [h]

theorem semanticValue_integer {v : AnyValue} {i : Int64} (h : semanticValue v = some (.integer i)) :
    v = .int i := by
  rcases v with _ | u | j | d | b | b | vs | es <;>
    simp only [semanticValue, some.injEq, SemanticValue.integer.injEq, reduceCtorEq] at h
  rw [h]

theorem semanticValue_float {v : AnyValue} {f : F64} (h : semanticValue v = some (.float f)) :
    v = .double f := by
  rcases v with _ | u | j | d | b | b | vs | es <;>
    simp only [semanticValue, some.injEq, SemanticValue.float.injEq, reduceCtorEq] at h
  rw [h]

variable {s : StoredSpan reader} {key : Text}

/-- The value that the evaluator reads at a plain key is what picking the key gives. -/
theorem PlainAt.jsonGet (h : PlainAt s key) (hagree : reader.Agree s.attributes) {v : SemanticValue}
    (hv : (semanticSpan s).attributes.get key = some v) :
    ∃ a, jsonGet reader s.attributes key = some a ∧ semanticValue a = some v := by
  obtain ⟨a, ha, hav⟩ := bind_eq_some_iff.mp (h.first v hv)
  exact ⟨a, jsonGet_of_getAttr hagree ha, hav⟩

variable {engine : SqlEngine} {promoted : List Text} {regex : Text → Option (Text → Bool)}

/-- A string attribute that the evaluator finds is the field of storage. -/
theorem PlainAt.attrField {value : Text} (h : PlainAt s key) (hagree : reader.Agree s.attributes)
    (hv : (semanticSpan s).attributes.get key = some (.string value)) : attrField promoted key s = some value := by
  obtain ⟨a, ha, hav⟩ := h.jsonGet hagree hv
  rw [attrField_eq promoted h.not_builtin, jsonGetStr, ha, semanticValue_string hav]
  rfl

/-- A number that the evaluator finds is the number of storage, as a double. -/
theorem PlainAt.attrNumField (h : PlainAt s key) (hagree : reader.Agree s.attributes) {v : SemanticValue} {x : F64}
    (hv : (semanticSpan s).attributes.get key = some v)
    (hx : (∃ i, v = .integer i ∧ x = intAsF64 i.toInt) ∨ v = .float x) :
    attrNumField engine promoted key s = some x := by
  obtain ⟨a, ha, hav⟩ := h.jsonGet hagree hv
  rcases hx with ⟨i, rfl, rfl⟩ | rfl
  · have hint := semanticValue_integer hav
    have hstr : jsonGetStr reader s.attributes key = none := by rw [jsonGetStr, ha, hint]; rfl
    rw [attrNumField_eq engine promoted h.not_builtin s hstr, jsonGetNum, ha, hint]
  · have hdouble := semanticValue_float hav
    have hstr : jsonGetStr reader s.attributes key = none := by rw [jsonGetStr, ha, hdouble]; rfl
    rw [attrNumField_eq engine promoted h.not_builtin s hstr, jsonGetNum, ha, hdouble]

theorem natAbs_int64 (i : Int64) : i.toInt.natAbs < 2 ^ 64 := by
  have hlow := i.le_toInt
  have hhigh := i.toInt_lt
  omega

/-- The order of a double and an exact integer, but for the negative zero. -/
theorem totalCmp_of_partialCmp {d : F64} {n : Int64} {o : Ordering} {op : NumOp}
    (hcmp : F64.partialCmp d (intAsF64 n.toInt) = some o) (hop : op.accepts o = true)
    (hzero : op = .ge → n = 0 → d ≠ negativeZero) :
    op.accepts (F64.totalCmp d (intAsF64 n.toInt)) = true := by
  have hnan : (F64.isNaN d || F64.isNaN (intAsF64 n.toInt)) = false := by
    by_contra hnan
    rw [F64.partialCmp, if_pos (Bool.eq_true_of_not_eq_false hnan)] at hcmp
    exact absurd hcmp (by simp)
  rw [Bool.or_eq_false_iff] at hnan
  by_cases hval : F64.value d ≠ 0 ∨ F64.value (intAsF64 n.toInt) ≠ 0
  · rw [partialCmp_eq_totalCmp hnan.1 hnan.2 hval] at hcmp
    rw [some.inj hcmp]
    exact hop
  · rw [not_or, not_not, not_not] at hval
    have hn0 : n.toInt = 0 := eq_zero_of_value_intAsF64 (natAbs_int64 n) hval.2
    have hn0' : n = 0 := Int64.toInt_inj.mp hn0
    have ho : o = .eq := by
      rw [F64.partialCmp, hnan.1, hnan.2, hval.1, hval.2] at hcmp
      exact (some.inj hcmp).symm
    rw [hn0]
    rcases eq_zero_of_value hval.1 with hd | hd
    · rw [hd]
      rw [ho] at hop
      exact hop
    · rw [hd]
      rw [ho] at hop
      -- the negative zero is below 0 in the total order
      have hlt : F64.totalCmp (BitVec.ofNat 64 (2 ^ 63)) (intAsF64 0) = .lt := by decide
      rw [hlt]
      rcases op with _ | _ | _ | _
      case ge => exact absurd hd (hzero rfl hn0')
      all_goals simp_all [NumOp.accepts]

/-- A pushed bound accepts the order in which the comparison holds. -/
theorem pushNumericAttr_accepts {n : Int64} (hf : f ∈ pushNumericAttr key op n) :
    (op ≠ .ne ∧ op ≠ .regex ∧ op ≠ .notRegex) ∧ n.toInt.natAbs < 2 ^ 53 ∧
      ∃ nop, f = .attrNum key nop n ∧
        ∀ o, (if op = .eq then o = .eq else ordered op (some o) = true) → nop.accepts o = true := by
  unfold pushNumericAttr at hf
  split at hf
  · exact absurd hf not_mem_nil
  · rename_i hn
    refine ⟨?_, by omega, ?_⟩
    · rcases op with _ | _ | _ | _ | _ | _ | _ | _ <;> simp at hf ⊢
    · rcases op with _ | _ | _ | _ | _ | _ | _ | _ <;>
        simp only [mem_cons, not_mem_nil, or_false] at hf
      case eq =>
        rcases hf with rfl | rfl
        · exact ⟨.ge, rfl, fun o ho => by simp at ho; rw [ho]; rfl⟩
        · exact ⟨.le, rfl, fun o ho => by simp at ho; rw [ho]; rfl⟩
      case gt => exact ⟨.gt, hf, fun o ho => by cases o <;> simp_all [ordered, NumOp.accepts]⟩
      case ge => exact ⟨.ge, hf, fun o ho => by cases o <;> simp_all [ordered, NumOp.accepts]⟩
      case lt => exact ⟨.lt, hf, fun o ho => by cases o <;> simp_all [ordered, NumOp.accepts]⟩
      case le => exact ⟨.le, hf, fun o ho => by cases o <;> simp_all [ordered, NumOp.accepts]⟩

/-- A pushed number is accepted by storage. -/
theorem attrNum_holds {n : Int64} (hagree : reader.Agree s.attributes)
    (hmatch : compareValue regex ((semanticSpan s).attributes.get key) op (.integer n) = .ok true)
    (hf : f ∈ pushNumericAttr key op n) (hplain : f.Plain s) : f.holds engine promoted s = true := by
  obtain ⟨hop, hn, nop, rfl, haccepts⟩ := pushNumericAttr_accepts hf
  obtain ⟨hat, hzero⟩ := hplain
  obtain ⟨o, hcmp, ho⟩ := compareValue_integer hat.not_array hop hmatch
  have hacc := haccepts o ho
  have hn64 : n.toInt.natAbs < 2 ^ 64 := natAbs_int64 n
  have hliteral : sqlLiteral (intAsF64 n.toInt) = intAsF64 n.toInt :=
    if_neg (intAsF64_ne_negativeZero hn64)
  rcases hv : (semanticSpan s).attributes.get key with _ | v
  · rw [hv] at hcmp
    exact absurd hcmp (by simp [semanticPartialCmp])
  · rw [hv] at hcmp hzero
    rcases v with _ | b | i | d | t | ns | b | vs
    case integer =>
      rw [SpanCandidateFilter.holds, hat.attrNumField hagree hv (.inl ⟨i, rfl, rfl⟩), hliteral, any_some, NumOp.holds,
        totalCmp_intAsF64 (natAbs_int64 i) hn, some.inj hcmp]
      exact hacc
    case float =>
      rw [SpanCandidateFilter.holds, hat.attrNumField hagree hv (.inr rfl), hliteral, any_some,
        NumOp.holds]
      apply totalCmp_of_partialCmp hcmp hacc
      intro hge hn0 hd
      exact hzero hge hn0 (by rw [hd])
    all_goals exact absurd hcmp (by simp [semanticPartialCmp])

/-- A pushed string is accepted by storage. -/
theorem attrEq_holds {value : Text} (hagree : reader.Agree s.attributes) (hplain : PlainAt s key)
    (hmatch : compareValue regex ((semanticSpan s).attributes.get key) .eq (.string value) = .ok true) :
    (SpanCandidateFilter.attrEq key value).holds engine promoted s = true :=
  decide_eq_true (hplain.attrField hagree (compareValue_string hplain.not_array hmatch))

/-- A pushed duration is accepted by storage. -/
theorem duration_holds {ns : ℕ}
    (hmatch : compareValue regex (some (.durationNs s.durationNs)) op (.durationNs ns) = .ok true)
    (hf : f ∈ pushPredicate (.duration op ns)) : f.holds engine promoted s = true := by
  rw [compareValue_scalar (by simp)] at hmatch
  have hcmp : ∀ o, compare s.durationNs ns = o →
      (op = .eq ∧ o = .eq) ∨ op = .ne ∨ op = .regex ∨ op = .notRegex ∨ ordered op (some o) = true := by
    rintro o rfl
    rcases op with _ | _ | _ | _ | _ | _ | _ | _
    case eq =>
      have heq : s.durationNs = ns := of_decide_eq_true (Except.ok.inj hmatch)
      exact .inl ⟨rfl, compare_eq_iff_eq.mpr heq⟩
    case ne => exact .inr (.inl rfl)
    case regex => exact .inr (.inr (.inl rfl))
    case notRegex => exact .inr (.inr (.inr (.inl rfl)))
    all_goals exact .inr (.inr (.inr (.inr (Except.ok.inj hmatch))))
  have hle : (op = .gt ∨ op = .ge ∨ op = .eq) → ns ≤ s.durationNs := by
    intro hop
    rcases lt_trichotomy s.durationNs ns with h | h | h
    · have := hcmp .lt (compare_lt_iff_lt.mpr h)
      rcases hop with rfl | rfl | rfl <;> simp [ordered] at this
    · exact h.ge
    · exact h.le
  have hge : (op = .lt ∨ op = .le ∨ op = .eq) → s.durationNs ≤ ns := by
    intro hop
    rcases lt_trichotomy s.durationNs ns with h | h | h
    · exact h.le
    · exact h.le
    · have := hcmp .gt (compare_gt_iff_gt.mpr h)
      rcases hop with rfl | rfl | rfl <;> simp [ordered] at this
  unfold pushPredicate at hf
  rcases op with _ | _ | _ | _ | _ | _ | _ | _ <;>
    simp only [mem_cons, not_mem_nil, or_false] at hf
  case eq =>
    rcases hf with rfl | rfl
    · exact decide_eq_true (hle (by simp))
    · exact decide_eq_true (hge (by simp))
  case gt | ge =>
    rw [hf]
    exact decide_eq_true (hle (by simp))
  case lt | le =>
    rw [hf]
    exact decide_eq_true (hge (by simp))

section

variable {regex : Text → Option (Text → Bool)} {trace : Option SemanticTrace}
  {spans : List SemanticSpan} {s : StoredSpan reader}

/-- A pushed attribute is accepted by storage. -/
theorem attribute_holds {scope : AttributeScope} {value : SemanticValue} (hagree : reader.Agree s.attributes)
    (hmatch : predicateMatches regex (semanticSpan s) trace spans (.attribute scope key op value) = .ok true)
    (hf : f ∈ pushAttribute scope key op value) (hplain : f.Plain s) : f.holds engine promoted s = true := by
  unfold pushAttribute at hf
  split at hf
  · rw [mem_singleton.mp hf] at hplain ⊢
    simp only [predicateMatches] at hmatch
    exact attrEq_holds hagree hplain hmatch
  · simp only [predicateMatches] at hmatch
    exact attrNum_holds hagree hmatch hf hplain
  · exact absurd hf not_mem_nil

mutual

/-- Storage accepts a span that satisfies the predicate. -/
theorem filter_holds (hagree : reader.Agree s.attributes) :
    ∀ p, predicateMatches regex (semanticSpan s) trace spans p = .ok true →
      (∀ f ∈ pushPredicate p, f.Plain s) → ∀ f ∈ pushPredicate p, f.holds engine promoted s = true
  | .all, _, _, _, hf => by simp [pushPredicate] at hf
  | .and preds, hmatch, hplain, f, hf => by
      simp only [pushPredicate] at hplain hf
      simp only [predicateMatches] at hmatch
      exact filters_hold hagree preds hmatch hplain f hf
  | .nameEq value, hmatch, _, f, hf => by
      simp only [pushPredicate, mem_singleton] at hf
      rw [hf]
      exact Except.ok.inj hmatch
  | .statusEq value, hmatch, _, f, hf => by
      simp only [pushPredicate, mem_singleton] at hf
      rw [hf]
      exact Except.ok.inj hmatch
  | .kindEq value, hmatch, _, f, hf => by
      simp only [pushPredicate, mem_singleton] at hf
      rw [hf]
      exact Except.ok.inj hmatch
  | .duration op ns, hmatch, _, f, hf => by
      simp only [predicateMatches] at hmatch
      exact duration_holds hmatch hf
  | .spanAttrEq key value, hmatch, hplain, f, hf => by
      simp only [predicateMatches] at hmatch
      have hf' := hf
      simp only [pushPredicate, mem_singleton] at hf'
      subst hf'
      exact attrEq_holds hagree (hplain _ hf) hmatch
  | .attribute scope key op value, hmatch, hplain, f, hf => by
      simp only [pushPredicate] at hplain hf
      exact attribute_holds hagree hmatch hf (hplain f hf)
  | .intrinsic _ _ _, _, _, _, hf => by simp [pushPredicate] at hf
  | .resourceAttrEq _ _, _, _, _, hf => by simp [pushPredicate] at hf

/-- Plain filters that are taken from predicates hold of a span that matches these. -/
theorem filters_hold (hagree : reader.Agree s.attributes) :
    ∀ ps, allMatch regex (semanticSpan s) trace spans ps = .ok true →
      (∀ f ∈ pushPredicates ps, f.Plain s) → ∀ f ∈ pushPredicates ps, f.holds engine promoted s = true
  | [], _, _, _, hf => by simp [pushPredicates] at hf
  | p :: ps, hmatch, hplain, f, hf => by
      simp only [pushPredicates, mem_append] at hplain hf
      unfold allMatch at hmatch
      obtain ⟨found, hfound, hrest⟩ := bind_eq_ok.mp hmatch
      rcases found with _ | _
      · exact absurd (Except.ok.inj hrest) Bool.false_ne_true
      · rcases hf with hf | hf
        · exact filter_holds hagree p hfound (fun f hf => hplain f (.inl hf)) f hf
        · exact filters_hold hagree ps hrest (fun f hf => hplain f (.inr hf)) f hf

end

end

end

/-! ## The side that is followed -/

/-- Each structural operator on the way to the filters needs the side that is followed: the left side
if it is not negated, the right side if its result is not united with the left side. -/
def sidesNeeded : SpansetExpr → Bool
  | .select _ | .or _ _ => true
  | .and left right => if candidateFilters left = [] then sidesNeeded right else sidesNeeded left
  | .structural left op right union =>
      if candidateFilters left = [] then !union && sidesNeeded right
      else !op.positive.2 && sidesNeeded left
  | .countAtLeast inner _ | .count inner _ _ => sidesNeeded inner

theorem candidateFilters_and (left right : SpansetExpr) :
    candidateFilters (.and left right) =
      if candidateFilters left = [] then candidateFilters right else candidateFilters left := by
  rw [candidateFilters]
  split
  · rename_i h
    rw [if_pos h]
  · rename_i h
    rw [if_neg h]

theorem candidateFilters_structural (left : SpansetExpr) (op : StructuralOp) (right : SpansetExpr)
    (union : Bool) :
    candidateFilters (.structural left op right union) =
      if candidateFilters left = [] then candidateFilters right else candidateFilters left :=
  candidateFilters_and left right

section

variable {regex : Text → Option (Text → Bool)} {spans : List SemanticSpan}
  {trace : Option SemanticTrace} {limits : EvalLimits}

/-- The predicate of a leaf is satisfied by a span, and the filters are taken from it. -/
def LeafHolds (regex : Text → Option (Text → Bool)) (spans : List SemanticSpan)
    (trace : Option SemanticTrace) (filters : List SpanCandidateFilter) : Prop :=
  ∃ p, pushPredicate p = filters ∧ ∃ s ∈ spans, predicateMatches regex s trace spans p = .ok true

/-! What the forms that take results select. -/

section

variable {left right input : SpansetExpr} {depth : ℕ} {out : IdSet}

/-- Both sides are evaluated, and a result needs both. -/
theorem eval_and (h : eval regex spans trace limits (.and left right) depth = .ok out) :
    ∃ l r, eval regex spans trace limits left (depth + 1) = .ok l ∧
      eval regex spans trace limits right (depth + 1) = .ok r ∧ out = if l = [] ∨ r = [] then [] else l.union r := by
  unfold eval at h
  split at h
  · cases h
  · obtain ⟨l, hl, h⟩ := bind_eq_ok.mp h
    obtain ⟨r, hr, h⟩ := bind_eq_ok.mp h
    exact ⟨l, r, hl, hr, (Except.ok.inj h).symm⟩

/-- What is related to the left side is taken from the right one. -/
theorem eval_structural {op : StructuralOp} {union : Bool}
    (h : eval regex spans trace limits (.structural left op right union) depth = .ok out) :
    ∃ l r matched, eval regex spans trace limits left (depth + 1) = .ok l ∧
      eval regex spans trace limits right (depth + 1) = .ok r ∧ structural spans l op r = .ok matched ∧
      out = if union then l.union matched else matched := by
  unfold eval at h
  split at h
  · cases h
  · obtain ⟨l, hl, h⟩ := bind_eq_ok.mp h
    obtain ⟨r, hr, h⟩ := bind_eq_ok.mp h
    obtain ⟨matched, hmatched, h⟩ := bind_eq_ok.mp h
    exact ⟨l, r, matched, hl, hr, hmatched, (Except.ok.inj h).symm⟩

/-- A result that has enough spans stays. -/
theorem eval_countAtLeast {count : ℕ} (h : eval regex spans trace limits (.countAtLeast input count) depth = .ok out) :
    ∃ selected, eval regex spans trace limits input (depth + 1) = .ok selected ∧
      out = if count ≤ selected.length then selected else [] := by
  unfold eval at h
  split at h
  · cases h
  · obtain ⟨selected, hsel, h⟩ := bind_eq_ok.mp h
    exact ⟨selected, hsel, (Except.ok.inj h).symm⟩

/-- A result stays as it is or becomes empty. -/
theorem eval_count {value : ℕ} (h : eval regex spans trace limits (.count input op value) depth = .ok out) :
    ∃ selected, eval regex spans trace limits input (depth + 1) = .ok selected ∧ (out = selected ∨ out = []) := by
  unfold eval at h
  split at h
  · cases h
  dsimp only at h
  split at h
  · cases h
  · obtain ⟨selected, hsel, h⟩ := bind_eq_ok.mp h
    obtain ⟨actual, _, h⟩ := bind_eq_ok.mp h
    obtain ⟨expected, _, h⟩ := bind_eq_ok.mp h
    obtain ⟨found, _, h⟩ := bind_eq_ok.mp h
    cases found with
    | true => exact ⟨selected, hsel, .inl (Except.ok.inj h).symm⟩
    | false => exact ⟨selected, hsel, .inr (Except.ok.inj h).symm⟩

end

/-- If the sides that are followed are needed, then a non-empty result has a span that satisfies the
leaf. -/
theorem eval_leaf {expr : SpansetExpr} {depth : ℕ} {out : IdSet}
    (hfilters : candidateFilters expr ≠ []) (hneeded : sidesNeeded expr = true)
    (h : eval regex spans trace limits expr depth = .ok out) (hout : out ≠ []) :
    LeafHolds regex spans trace (candidateFilters expr) := by
  induction expr generalizing depth out with
  | select p =>
    unfold eval at h
    split at h
    · exact absurd h (by simp)
    · obtain ⟨id, hid⟩ := exists_mem_of_ne_nil out hout
      rcases mem_selectSpans h id hid with hsel | hspan
      · exact absurd hsel not_mem_nil
      · exact ⟨p, rfl, hspan⟩
  | and left right ihl ihr =>
    obtain ⟨l, r, hl, hr, hres⟩ := eval_and h
    have hboth : l ≠ [] ∧ r ≠ [] := by
      by_contra hempty
      rw [not_and_or, not_not, not_not] at hempty
      exact hout (hres.trans (if_pos hempty))
    rw [candidateFilters_and] at hfilters ⊢
    unfold sidesNeeded at hneeded
    split at hneeded
    · rename_i hleft
      rw [if_pos hleft] at hfilters ⊢
      exact ihr hfilters hneeded hr hboth.2
    · rename_i hleft
      rw [if_neg hleft] at hfilters ⊢
      exact ihl hfilters hneeded hl hboth.1
  | or left right => exact absurd rfl hfilters
  | structural left op right union ihl ihr =>
    obtain ⟨l, r, matched, hl, hr, hmatched, hres⟩ := eval_structural h
    rw [candidateFilters_structural] at hfilters ⊢
    unfold sidesNeeded at hneeded
    split at hneeded
    · rename_i hleft
      rw [if_pos hleft] at hfilters ⊢
      rw [Bool.and_eq_true, Bool.not_eq_true'] at hneeded
      rw [hneeded.1, if_neg Bool.false_ne_true] at hres
      apply ihr hfilters hneeded.2 hr
      -- what is matched comes from the right side
      intro hnil
      obtain ⟨id, hid⟩ := exists_mem_of_ne_nil out hout
      have hright := structural_subset hmatched id (hres ▸ hid)
      rw [hnil] at hright
      exact not_mem_nil hright
    · rename_i hleft
      rw [if_neg hleft] at hfilters ⊢
      rw [Bool.and_eq_true, Bool.not_eq_true'] at hneeded
      apply ihl hfilters hneeded.2 hl
      intro hnil
      subst hnil
      have hempty := structural_left hneeded.1 hmatched
      subst hempty
      apply hout
      rw [hres]
      rcases union with _ | _ <;> rfl
  | countAtLeast inner count ih =>
    rw [candidateFilters] at hfilters ⊢
    split at hfilters
    · rename_i hcount
      rw [if_pos hcount]
      obtain ⟨selected, hsel, rfl⟩ := eval_countAtLeast h
      apply ih hfilters hneeded hsel
      rintro rfl
      exact hout (ite_self _)
    · exact absurd rfl hfilters
  | count input op value ih =>
    rw [candidateFilters] at hfilters ⊢
    split at hfilters
    · rename_i hcount
      rw [if_pos hcount]
      obtain ⟨selected, hsel, hres⟩ := eval_count h
      apply ih hfilters hneeded hsel
      rintro rfl
      exact hout (hres.elim id id)
    · exact absurd rfl hfilters

/-- A trace without spans has no result. -/
theorem eval_nil {expr : SpansetExpr} {depth : ℕ} {out : IdSet}
    (h : eval regex [] trace limits expr depth = .ok out) : out = [] := by
  induction expr generalizing depth out with
  | select p =>
    unfold eval at h
    split at h
    · exact absurd h (by simp)
    · exact (Except.ok.inj h).symm
  | and left right ihl ihr =>
    obtain ⟨l, r, hl, -, rfl⟩ := eval_and h
    exact if_pos (.inl (ihl hl))
  | or left right ihl ihr =>
    unfold eval at h
    split at h
    · exact absurd h (by simp)
    · obtain ⟨l, hl, h⟩ := bind_eq_ok.mp h
      obtain ⟨r, hr, h⟩ := bind_eq_ok.mp h
      rw [← Except.ok.inj h, ihl hl, ihr hr]
      rfl
  | structural left op right union ihl ihr =>
    obtain ⟨l, r, matched, hl, hr, hmatched, rfl⟩ := eval_structural h
    rw [ihr hr] at hmatched
    rw [ihl hl, ← Except.ok.inj hmatched]
    rcases union with _ | _ <;> rfl
  | countAtLeast inner count ih =>
    obtain ⟨selected, hsel, rfl⟩ := eval_countAtLeast h
    rw [ih hsel, ite_self]
  | count input op value ih =>
    obtain ⟨selected, hsel, hres⟩ := eval_count h
    exact hres.elim (·.trans (ih hsel)) id

end

end Imbh.Lgtm
