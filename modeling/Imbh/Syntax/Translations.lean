import Imbh.Syntax.LogQl
import Imbh.Syntax.PromQl
import Imbh.Syntax.Safe
import Imbh.Syntax.Spansets

/-!
# What the translators accept and reject

A level of parentheses is counted, and a chain of operators is not: it is read by a loop, and nests to the left.

* `translations_safe` — how deep the trees of the translators are, and where their diagnostics are placed.
* `depth_unbounded` — a chain is as deep as it is long.
-/

namespace Imbh.Syntax

open Lib Lgtm

/-! ## Depths -/

/-- How deep a tree is, with its root. -/
def PromQl.depth : PromExpr → ℕ
  | .aggregate _ _ input => 1 + depth input
  | _ => 1

mutual

/-- How deep a filter is, with its root. -/
def LogQl.depth : LogFilter → ℕ
  | .and filters => 1 + depthOf filters
  | _ => 1

def LogQl.depthOf : List LogFilter → ℕ
  | [] => 0
  | filter :: filters => max (depth filter) (depthOf filters)

end

/-- How deep a tree is, with its root. -/
def TraceQl.depth : SpansetExpr → ℕ
  | .select _ => 1
  | .and left right => 1 + max (depth left) (depth right)
  | .or left right => 1 + max (depth left) (depth right)
  | .structural left _ right _ => 1 + max (depth left) (depth right)
  | .countAtLeast inner _ => 1 + depth inner
  | .count input _ _ => 1 + depth input

/-- The same, where the left operands of an operator are as deep as it is: a chain is no deeper than its operands. -/
def TraceQl.nesting : SpansetExpr → ℕ
  | .select _ => 1
  | .and left right => max (nesting left) (1 + nesting right)
  | .or left right => max (nesting left) (1 + nesting right)
  | .structural left _ right _ => max (nesting left) (1 + nesting right)
  | .countAtLeast inner _ => 1 + nesting inner
  | .count input _ _ => 1 + nesting input

/-- How deep the tree of a query is, with its root. -/
def ImbhQueryModel.depth : ImbhQueryModel → ℕ
  | .prom expr => PromQl.depth expr
  | .log expr => LogQl.depth expr.filter
  | .logSelector filter => LogQl.depth filter
  | .trace expr => TraceQl.depth expr

/-- The same, where a chain of operators is no deeper than its operands. -/
def ImbhQueryModel.nesting : ImbhQueryModel → ℕ
  | .trace expr => TraceQl.nesting expr
  | model => model.depth

/-! ## PromQL -/

namespace PromQl

variable {source : Text}

theorem safe_parseGrouping : @Safe source _ 0 parseGrouping Any := by
  refine safe_identifier.bind fun word hrange => .ite (fun _ => ?_) fun _ => .ite (fun _ => ?_) fun _ => ?_
  · exact (safe_expect _).bind fun _ _ => safe_groupingLabels.bind fun _ _ => .pure trivial
  · exact (safe_expect _).bind fun _ _ => safe_groupingLabels.bind fun _ _ => .pure trivial
  · exact safe_failAt _ hrange (by simp)

theorem safe_parseOptionalGrouping : @Safe source _ 0 parseOptionalGrouping Any := by
  have hword : @Safe source _ 0 atGrouping Any :=
    (safe_consumeKeyword _).bind fun _ _ => .ite (fun _ => .pure trivial) fun _ => safe_consumeKeyword _
  refine (safe_probe hword).bind fun _ _ => .ite (fun _ => ?_) fun _ => .pure trivial
  exact safe_parseGrouping.bind fun _ _ => .pure trivial

theorem safe_parseSelector (storageMetric : Text) : @Safe source _ 0 (parseSelector storageMetric) Any := by
  refine (safe_consume _).bind fun _ _ => .ite (fun _ => ?_) fun _ => .pure trivial
  exact (safe_commaList _ (safe_matcher (P := Any) (by simp) _ fun _ _ _ => trivial)).bind fun _ _ => .pure trivial

theorem safe_parseRate (context : TranslateContext) (kind : MetricKind) :
    @Safe source _ 0 (parseRate context kind) Any := by
  refine safe_identifier.bind fun metric hrange => (safe_resolveMetric context _ kind hrange).bind fun storage _ => ?_
  refine (safe_parseSelector storage).bind fun matchers _ => (safe_expect _).bind fun _ _ => ?_
  refine safe_durationNs.bind fun windowNs _ => (safe_expect _).bind fun _ _ => ?_
  exact (safe_expect _).bind fun _ _ => .pure trivial

theorem safe_theGrouping (before behind : Option Grouping) : @Safe source _ 0 (theGrouping before behind) Any :=
  .ite (fun _ => safe_failHere _ (by simp)) fun _ => .pure trivial

theorem safe_quantileLabels (grouping : Option Grouping) : @Safe source _ 0 (quantileLabels grouping) Any := by
  unfold quantileLabels
  split
  · exact safe_failHere _ (by simp)
  · exact safe_failHere _ (by simp)
  · exact .ite (fun _ => .pure trivial) fun _ => safe_failHere _ (by simp)

theorem safe_parseHistogramQuantile (context : TranslateContext) (room : ℕ) :
    @Safe source _ 0 (parseHistogramQuantile context room) fun e => depth e = 1 := by
  cases room with
  | zero => exact safe_failHere _ (by simp)
  | succ room =>
    refine (safe_expect _).bind fun _ _ => safe_float.bind fun phi _ => (safe_expect _).bind fun _ _ => ?_
    refine safe_identifier.bind fun sum hsum => .ite (fun _ => safe_failAt _ hsum (by simp)) fun _ => ?_
    refine safe_parseOptionalGrouping.bind fun before _ => (safe_expect _).bind fun _ _ => ?_
    refine safe_identifier.bind fun rate hrate => .ite (fun _ => safe_failAt _ hrate (by simp)) fun _ => ?_
    refine (safe_expect _).bind fun _ _ => (safe_parseRate context _).bind fun matchers _ => ?_
    refine (safe_expect _).bind fun _ _ => safe_parseOptionalGrouping.bind fun behind _ => ?_
    refine (safe_theGrouping before behind).bind fun grouping _ => (safe_quantileLabels grouping).bind fun labels _ => ?_
    exact (safe_expect _).bind fun _ _ => .pure rfl

theorem safe_parseAggregate (op : PromAggregate) {operand : Parse source PromExpr} {n : ℕ}
    (h : Safe 0 operand fun e => depth e ≤ n) : Safe 0 (parseAggregate op operand) fun e => depth e ≤ n + 1 := by
  refine safe_parseOptionalGrouping.bind fun before _ => (safe_expect _).bind fun _ _ => ?_
  refine h.bind fun input hinput => (safe_expect _).bind fun _ _ => ?_
  refine safe_parseOptionalGrouping.bind fun behind _ => (safe_theGrouping before behind).bind fun grouping _ => ?_
  refine .pure ?_
  show 1 + depth input ≤ n + 1
  omega

theorem safe_parseMetric (context : TranslateContext) (name : Text) {range : SourceRange}
    (hrange : GoodRange source range) : @Safe source _ 0 (parseMetric context name range) fun e => depth e = 1 := by
  refine (safe_resolveAnyMetric context name hrange).bind fun metric _ => ?_
  refine .ite (fun _ => safe_failAt _ hrange (by simp)) fun _ => ?_
  exact (safe_parseSelector _).bind fun matchers _ => .pure rfl

/-- Each level of an expression takes one of those that are left. -/
theorem safe_parseExpression (context : TranslateContext) (room : ℕ) :
    @Safe source _ 0 (parseExpression context room) fun e => depth e ≤ room := by
  induction room with
  | zero => exact safe_failHere _ (by simp)
  | succ room ih =>
    refine (safe_consume _).bind fun _ _ => .ite (fun _ => ?_) fun _ => ?_
    · refine ih.bind fun expression hdepth => (safe_expect _).bind fun _ _ => .pure ?_
      exact hdepth.trans (Nat.le_succ room)
    · refine safe_identifier.bind fun name hrange => ?_
      have hleaf (e : PromExpr) (h : depth e = 1) : depth e ≤ room + 1 := by omega
      dsimp only
      split
      · exact safe_parseAggregate _ ih
      · refine .ite (fun _ => ?_) fun _ => .ite (fun _ => ?_) fun _ => ?_
        · refine (safe_expect _).bind fun _ _ => (safe_parseRate context _).bind fun rate _ => .pure ?_
          exact hleaf _ rfl
        · exact (safe_parseHistogramQuantile context room).mono hleaf
        · exact (safe_parseMetric context _ hrange).mono hleaf

theorem safe_parseQuery (context : TranslateContext) :
    @Safe source _ 0 (parseQuery context) fun e => depth e ≤ 128 :=
  (safe_parseExpression context 128).bind fun _ h => safe_finish.bind fun _ _ => .pure h

end PromQl

/-! ## LogQL -/

namespace LogQl

variable {source : Text}

theorem depthOf_le {filters : List LogFilter} (h : ∀ filter ∈ filters, depth filter = 1) : depthOf filters ≤ 1 := by
  induction filters with
  | nil => exact Nat.zero_le _
  | cons filter filters ih =>
    obtain ⟨hfilter, hfilters⟩ := List.forall_mem_cons.mp h
    exact max_le hfilter.le (ih hfilters)

theorem depth_filterOf {filters : List LogFilter} (h : ∀ filter ∈ filters, depth filter = 1) :
    depth (filterOf filters) ≤ 2 := by
  unfold filterOf
  split
  · exact Nat.le_succ 1
  · exact (h _ List.mem_cons_self).le.trans (Nat.le_succ 1)
  · have hle := depthOf_le h
    rw [depth]
    omega

theorem progress_lineRound : Progress (@lineRound source) := by
  intro filters c filters' c' h
  obtain ⟨make, c₁, hmake, h⟩ := run_bind_ok.mp h
  cases make with
  | none =>
    obtain ⟨h, -⟩ := run_pure_ok.mp h
    cases h
  | some make =>
    obtain ⟨value, c₂, hvalue, h⟩ := run_bind_ok.mp h
    obtain ⟨-, rfl⟩ := run_pure_ok.mp h
    have hlt := consumeFirst_lt (by simp [lineTokens]) hmake
    have hless := (safe_quotedString.ok _ _ _ (Nat.zero_le _) hvalue).1.length_le
    omega

theorem depth_lineTokens {make : Text → LogFilter} {token : Text} (h : (token, make) ∈ lineTokens) (value : Text) :
    depth (make value) = 1 := by
  simp only [lineTokens, List.mem_cons, Prod.mk.injEq, List.not_mem_nil, or_false] at h
  rcases h with ⟨-, rfl⟩ | ⟨-, rfl⟩ | ⟨-, rfl⟩ | ⟨-, rfl⟩ | ⟨-, rfl⟩ | ⟨-, rfl⟩ <;> rfl

theorem safe_lineRound {filters : List LogFilter} (h : ∀ filter ∈ filters, depth filter = 1) :
    @Safe source _ 0 (lineRound filters) (Sum.elim (fun filters => ∀ filter ∈ filters, depth filter = 1)
      fun filters => ∀ filter ∈ filters, depth filter = 1) := by
  refine (safe_consumeFirst _).bind fun make hmake => ?_
  cases make with
  | none => exact .pure h
  | some make =>
    obtain ⟨token, hmem⟩ := hmake make rfl
    refine safe_quotedString.bind fun value _ => .pure fun filter hfilter => ?_
    rcases List.mem_append.mp hfilter with hfilter | hfilter
    · exact h filter hfilter
    · rw [List.mem_singleton.mp hfilter]
      exact depth_lineTokens hmem value

theorem safe_parseLogRange : @Safe source _ 0 parseLogRange fun filter => depth filter ≤ 2 := by
  have hlabel (name : Text) (op : MatchOp) (value : Text) : depth (labelFilter name op value) = 1 := by
    cases op <;> rfl
  have hstream : @Safe source _ 0 parseStream fun filters => ∀ filter ∈ filters, depth filter = 1 := by
    refine safe_skipWs.bind fun _ _ => safe_peek.bind fun _ _ => .ite (fun _ => ?_) fun _ => .pure (by simp)
    exact (safe_expect _).bind fun _ _ => safe_commaList _ (safe_matcher (by simp) _ hlabel)
  refine hstream.bind fun labels hlabels => ?_
  refine (safe_loop progress_lineRound hlabels fun _ => safe_lineRound).bind fun filters hfilters => ?_
  exact .pure (depth_filterOf hfilters)

theorem safe_parseSumGrouping : @Safe source _ 0 parseSumGrouping Any := by
  refine safe_identifier.bind fun word hrange => .ite (fun _ => safe_failAt _ hrange (by simp)) fun _ => ?_
  exact (safe_expect _).bind fun _ _ => safe_groupingLabels.bind fun _ _ => .pure trivial

theorem safe_parseRange : @Safe source _ 0 parseRange fun range => depth range.1 ≤ 2 := by
  have hoffset : @Safe source _ 0 parseOffset Any :=
    (safe_consume _).bind fun _ _ => .ite (fun _ => safe_durationNs) fun _ => .pure trivial
  refine (safe_expect _).bind fun _ _ => safe_parseLogRange.bind fun filter hfilter => ?_
  refine (safe_expect _).bind fun _ _ => safe_durationNs.bind fun windowNs _ => ?_
  refine (safe_expect _).bind fun _ _ => hoffset.bind fun offsetNs _ => ?_
  exact (safe_expect _).bind fun _ _ => .pure hfilter

theorem safe_parseFunction (word : Text) : @Safe source _ 0 (parseFunction word) Any := by
  refine .ite (fun _ => ?_) fun _ => .pure trivial
  refine safe_parseSumGrouping.bind fun grouping _ => (safe_expect _).bind fun _ _ => ?_
  exact safe_identifier.bind fun function _ => .pure trivial

theorem safe_parseExpression : @Safe source _ 0 parseExpression fun e => depth e.filter ≤ 2 := by
  refine safe_identifier.bind fun word hrange => (safe_parseFunction word.1).bind fun function _ => ?_
  dsimp only
  split
  · exact safe_failAt _ hrange (by simp)
  · refine safe_parseRange.bind fun range hfilter => .ite (fun _ => ?_) fun _ => .pure hfilter
    exact (safe_expect _).bind fun _ _ => .pure hfilter

theorem safe_parseQuery : @Safe source _ 0 parseQuery fun q => q.model.depth ≤ 2 := by
  have htranslated : @Safe source _ 0 parseTranslated fun q => q.model.depth ≤ 2 := by
    refine safe_skipWs.bind fun _ _ => safe_peek.bind fun _ _ => .ite (fun _ => ?_) fun _ => ?_
    · exact safe_parseLogRange.bind fun filter h => .pure h
    · exact safe_parseExpression.bind fun e h => .pure h
  exact htranslated.bind fun q h => safe_finish.bind fun _ _ => .pure h

end LogQl

/-! ## TraceQL -/

namespace TraceQl

variable {source : Text}

/-! ### Selectors -/

theorem safe_parseCompareOperator : @Safe source _ 0 parseCompareOperator Any := by
  refine (safe_consumeFirst _).bind fun op _ => ?_
  cases op with
  | none => exact safe_failHere _ (by simp)
  | some op => exact .pure trivial

theorem safe_predicateTarget (field : Text) {range : SourceRange} (hrange : GoodRange source range) :
    @Safe source _ 0 (predicateTarget field range) Any := by
  unfold predicateTarget
  split
  · exact .pure trivial
  · split
    · exact safe_failAt _ hrange (by simp)
    · exact .ite (fun _ => safe_failAt _ hrange (by simp)) fun _ => .pure trivial

theorem safe_parseValue (target : PredicateTarget) : @Safe source _ 0 (parseValue target) Any := by
  refine .ite (fun _ => ?_) fun _ => .ite (fun _ => ?_) fun _ => ?_
  · exact safe_durationNs.bind fun _ _ => .pure trivial
  · exact safe_unsigned.bind fun _ _ => .ite (fun _ => .pure trivial) fun _ => safe_failHere _ (by simp)
  · refine safe_skipWs.bind fun _ _ => safe_peek.bind fun next _ =>
      .ite (fun _ => ?_) fun _ => .ite (fun _ => ?_) fun _ => ?_
    · exact safe_quotedString.bind fun _ _ => .pure trivial
    · exact safe_float.bind fun _ _ => .pure trivial
    · exact safe_identifier.bind fun _ _ => .pure trivial

theorem safe_parsePredicate : @Safe source _ 0 parsePredicate Any := by
  refine safe_identifier.bind fun field hrange => safe_parseCompareOperator.bind fun operation _ => ?_
  refine (safe_predicateTarget _ hrange).bind fun target _ => (safe_parseValue target).bind fun value _ => ?_
  split
  · exact .pure trivial
  · exact .pure trivial

theorem progress_selectorBody : Progress (@selectorBody source) := by
  intro predicates c predicates' c' h
  obtain ⟨predicate, c₁, hpredicate, h⟩ := run_bind_ok.mp h
  obtain ⟨found, c₂, hfound, h⟩ := run_bind_ok.mp h
  have hless := (safe_parsePredicate.ok _ _ _ (Nat.zero_le _) hpredicate).1.length_le
  have hless' := (consume_spec hfound).1.length_le
  split at h
  · obtain ⟨h, -⟩ := run_pure_ok.mp h
    cases h
  · obtain ⟨found', c₃, hfound', h⟩ := run_bind_ok.mp h
    split at h
    · rename_i htrue
      obtain ⟨-, rfl⟩ := run_pure_ok.mp h
      have hlt := (consume_spec hfound').2 htrue (by simp)
      omega
    · cases h

theorem safe_selectorBody (predicates : List SpanPredicate) :
    @Safe source _ 0 (selectorBody predicates) (Sum.elim Any Any) := by
  refine safe_parsePredicate.bind fun predicate _ => (safe_consume _).bind fun _ _ => ?_
  refine .ite (fun _ => .pure trivial) fun _ => (safe_consume _).bind fun _ _ => ?_
  exact .ite (fun _ => .pure trivial) fun _ => safe_failHere _ (by simp)

/-- A selector, of which the brace is read before the rest. -/
theorem parseSelector_spec : (@Safe source _ 0 parseSelector fun e => ∃ predicate, e = .select predicate) ∧
    ∀ (c : Cursor source) e c', parseSelector c = .ok (e, c') → c'.remaining.length < c.remaining.length := by
  refine safe_behind_expect (by simp) ?_
  refine (safe_consume _).bind fun _ _ => .ite (fun _ => .pure ⟨_, rfl⟩) fun _ => ?_
  refine (safe_loop progress_selectorBody (P := Any) (Q := Any) trivial fun predicates _ =>
    safe_selectorBody predicates).bind fun predicates _ => ?_
  split
  · exact .pure ⟨_, rfl⟩
  · exact .pure ⟨_, rfl⟩

/-! ### Chains -/

/-- A level of operators: each is read, and its tree has the operands. -/
structure ReadsLevel (operator : Parse source (Option (SpansetExpr → SpansetExpr → SpansetExpr))) : Prop where
  safe : Safe 0 operator fun combine => ∀ f ∈ combine, ∀ left right,
    depth (f left right) = 1 + max (depth left) (depth right) ∧
      nesting (f left right) = max (nesting left) (1 + nesting right)
  progress : ∀ c f c', operator c = .ok (some f, c') → c'.remaining.length < c.remaining.length

theorem readsLevel_token {token : Text} (hne : token ≠ []) {f : SpansetExpr → SpansetExpr → SpansetExpr}
    (hf : ∀ left right, depth (f left right) = 1 + max (depth left) (depth right) ∧
      nesting (f left right) = max (nesting left) (1 + nesting right)) :
    @ReadsLevel source (do if ← consume token then return some f else return none) where
  safe := by
    refine (safe_consume _).bind fun _ _ => .ite (fun _ => .pure ?_) fun _ => .pure (by simp)
    rintro _ ⟨⟩
    exact hf
  progress c g c' h := by
    obtain ⟨found, c₁, hfound, h⟩ := run_bind_ok.mp h
    split at h
    · rename_i htrue
      obtain ⟨-, rfl⟩ := run_pure_ok.mp h
      exact (consume_spec hfound).2 htrue hne
    · obtain ⟨h, -⟩ := run_pure_ok.mp h
      cases h

theorem readsLevel_and :
    @ReadsLevel source (do if ← consume "&&".toList then return some .and else return none) :=
  readsLevel_token (by simp) fun _ _ => ⟨rfl, rfl⟩

theorem readsLevel_or :
    @ReadsLevel source (do if ← consume "||".toList then return some .or else return none) :=
  readsLevel_token (by simp) fun _ _ => ⟨rfl, rfl⟩

theorem readsLevel_structural : @ReadsLevel source parseStructuralOperator where
  safe := by
    refine (safe_consumeFirst _).bind fun op _ => ?_
    cases op with
    | none => exact .pure (by simp)
    | some op =>
      refine .pure ?_
      rintro _ ⟨⟩
      exact fun left right => ⟨rfl, rfl⟩
  progress c g c' h := by
    obtain ⟨op, c₁, hop, h⟩ := run_bind_ok.mp h
    cases op with
    | none =>
      obtain ⟨h, -⟩ := run_pure_ok.mp h
      cases h
    | some op =>
      obtain ⟨-, rfl⟩ := run_pure_ok.mp h
      exact consumeFirst_lt (by simp [structuralTokens]) hop

variable {operator : Parse source (Option (SpansetExpr → SpansetExpr → SpansetExpr))}
  {operand : Parse source SpansetExpr} {n : ℕ}

theorem progress_chainRound (hoperator : ReadsLevel operator) {P : SpansetExpr → Prop} (hoperand : Safe 0 operand P) :
    Progress (chainRound operator operand) := by
  intro left c left' c' h
  obtain ⟨combine, c₁, hcombine, h⟩ := run_bind_ok.mp h
  cases combine with
  | none =>
    obtain ⟨h, -⟩ := run_pure_ok.mp h
    cases h
  | some f =>
    obtain ⟨right, c₂, hright, h⟩ := run_bind_ok.mp h
    obtain ⟨-, rfl⟩ := run_pure_ok.mp h
    have hlt := hoperator.progress _ _ _ hcombine
    have hless := (hoperand.ok _ _ _ (Nat.zero_le _) hright).1.length_le
    omega

/-- A chain nests one deeper than its operands, however long it is. -/
theorem safe_chain (hoperator : ReadsLevel operator) (hoperand : Safe 0 operand fun e => nesting e ≤ n) :
    Safe 0 (chain operator operand) fun e => nesting e ≤ n + 1 := by
  refine hoperand.bind fun left hleft => ?_
  refine safe_loop (progress_chainRound hoperator hoperand) (P := fun e => nesting e ≤ n + 1)
    (hleft.trans (Nat.le_succ n)) fun left hleft => ?_
  refine hoperator.safe.bind fun combine hcombine => ?_
  cases combine with
  | none => exact .pure hleft
  | some f =>
    refine hoperand.bind fun right hright => .pure ?_
    show nesting (f left right) ≤ n + 1
    rw [(hcombine f rfl left right).2]
    omega

/-- A tree is no deeper than the text it is read from is long. -/
def Weighs (p : Parse source SpansetExpr) : Prop :=
  ∀ c e c', p c = .ok (e, c') → depth e + c'.remaining.length ≤ c.remaining.length

theorem weighs_chain (hoperator : ReadsLevel operator) (hoperand : Weighs operand) : Weighs (chain operator operand) := by
  have hrounds : ∀ rounds left c e c', loopFrom (chainRound operator operand) rounds left c = .ok (e, c') →
      depth e + c'.remaining.length ≤ depth left + c.remaining.length := by
    intro rounds
    induction rounds with
    | zero =>
      intro left c e c' h
      cases h
    | succ rounds ih =>
      intro left c e c' h
      obtain ⟨r, c₁, hr, h⟩ := run_bind_ok.mp h
      obtain ⟨combine, c₂, hcombine, hr⟩ := run_bind_ok.mp hr
      obtain ⟨hsuffix, hf⟩ := hoperator.safe.ok _ _ _ (Nat.zero_le _) hcombine
      have hless := hsuffix.length_le
      cases combine with
      | none =>
        obtain ⟨rfl, rfl⟩ := run_pure_ok.mp hr
        obtain ⟨rfl, rfl⟩ := run_pure_ok.mp h
        omega
      | some f =>
        obtain ⟨right, c₃, hright, hr⟩ := run_bind_ok.mp hr
        obtain ⟨rfl, rfl⟩ := run_pure_ok.mp hr
        have hlt := hoperator.progress _ _ _ hcombine
        have hweight := hoperand _ _ _ hright
        have hrest := ih _ _ _ _ h
        rw [(hf f rfl left right).1] at hrest
        omega
  intro c e c' h
  obtain ⟨left, c₁, hleft, h⟩ := run_bind_ok.mp h
  have hweight := hoperand _ _ _ hleft
  have hrest := hrounds _ _ _ _ _ h
  omega

/-! ### Expressions -/

/-- A level of parentheses nests three deeper. -/
theorem safe_parseSpanset (room : ℕ) :
    @Safe source _ 0 (parseSpanset room) fun e => nesting e ≤ 3 * room + 1 := by
  induction room with
  | zero => exact safe_failHere _ (by simp)
  | succ room ih =>
    have hprimary : @Safe source _ 0 (parsePrimary (parseSpanset room)) fun e => nesting e ≤ 3 * room + 1 := by
      refine (safe_consume _).bind fun _ _ => .ite (fun _ => ?_) fun _ => parseSelector_spec.1.mono ?_
      · exact ih.bind fun e he => (safe_expect _).bind fun _ _ => .pure he
      · rintro _ ⟨predicate, rfl⟩
        exact Nat.le_add_left 1 _
    exact safe_chain readsLevel_or (safe_chain readsLevel_and (safe_chain readsLevel_structural hprimary))

theorem weighs_parseSpanset (room : ℕ) : @Weighs source (parseSpanset room) := by
  induction room with
  | zero =>
    intro c e c' h
    cases h
  | succ room ih =>
    have hprimary : @Weighs source (parsePrimary (parseSpanset room)) := by
      intro c e c' h
      obtain ⟨found, c₁, hfound, h⟩ := run_bind_ok.mp h
      have hless := (consume_spec hfound).1.length_le
      split at h
      · obtain ⟨e', c₂, he, h⟩ := run_bind_ok.mp h
        obtain ⟨u, c₃, hu, h⟩ := run_bind_ok.mp h
        obtain ⟨rfl, rfl⟩ := run_pure_ok.mp h
        have hweight := ih _ _ _ he
        have hlt := expect_lt (by simp) hu
        omega
      · obtain ⟨-, predicate, rfl⟩ := parseSelector_spec.1.ok _ _ _ (Nat.zero_le _) h
        have hlt := parseSelector_spec.2 _ _ _ h
        show 1 + c'.remaining.length ≤ c.remaining.length
        omega
    exact weighs_chain readsLevel_or (weighs_chain readsLevel_and (weighs_chain readsLevel_structural hprimary))

/-- A pipeline is a count, of which the bar is read before the rest. -/
theorem parsePipeline_spec (e : SpansetExpr) :
    (@Safe source _ 0 (parsePipeline e) fun e' => (∃ op value, e' = .count e op value) ∨ e' = e) ∧
      ∀ (c : Cursor source) e' c', parsePipeline e c = .ok (e', c') →
        (∃ op value, e' = .count e op value) ∧ c'.remaining.length < c.remaining.length ∨
          e' = e ∧ c'.remaining.length ≤ c.remaining.length := by
  refine safe_behind_consume (by simp) ?_ (.pure rfl)
  refine safe_identifier.bind fun word hrange => .ite (fun _ => safe_failAt _ hrange (by simp)) fun _ => ?_
  refine (safe_expect _).bind fun _ _ => (safe_expect _).bind fun _ _ => safe_parseCompareOperator.bind fun op _ => ?_
  exact .ite (fun _ => safe_failHere _ (by simp)) fun _ => safe_unsigned.bind fun value _ => .pure ⟨op, value, rfl⟩

theorem safe_parseQuery : @Safe source _ 0 parseQuery fun e => nesting e ≤ 386 := by
  refine (safe_parseSpanset 128).bind fun e he => (parsePipeline_spec e).1.bind fun e' he' => ?_
  refine safe_finish.bind fun _ _ => .pure ?_
  rcases he' with ⟨op, value, rfl⟩ | rfl
  · show 1 + nesting e ≤ 386
    omega
  · omega

theorem weighs_parseQuery : @Weighs source parseQuery := by
  intro c e' c' h
  obtain ⟨e, c₁, he, h⟩ := run_bind_ok.mp h
  obtain ⟨e'', c₂, he'', h⟩ := run_bind_ok.mp h
  obtain ⟨u, c₃, hu, h⟩ := run_bind_ok.mp h
  obtain ⟨rfl, rfl⟩ := run_pure_ok.mp h
  have hweight := weighs_parseSpanset 128 _ _ _ he
  have hless := (safe_finish.ok _ _ _ (Nat.zero_le _) hu).1.length_le
  rcases (parsePipeline_spec e).2 _ _ _ he'' with ⟨⟨op, value, rfl⟩, hlt⟩ | ⟨rfl, hle⟩
  · show 1 + depth e + c'.remaining.length ≤ c.remaining.length
    omega
  · omega

end TraceQl

/-! ## Translations -/

/-- A translation is a query whose tree has the property, or a diagnostic that is placed in the source. -/
structure Translates (source : Text) (P : ImbhQueryModel → Prop) (result : Except Diagnostic TranslatedQuery) : Prop where
  query : ∀ q, result = .ok q → P q.model
  diagnostic : ∀ d, result = .error d → Placed source d

theorem Safe.translates {source : Text} {α : Type} {p : Parse source α} {P : α → Prop} (h : Safe 0 p P)
    {make : α → TranslatedQuery} {Q : ImbhQueryModel → Prop}
    (hmake : ∀ a c, p (Cursor.new source) = .ok (a, c) → P a → Q (make a).model) :
    Translates source Q (translate source (make <$> p)) := by
  rw [translate_map]
  unfold translate
  rcases hp : p (Cursor.new source) with d | ⟨a, c⟩
  · refine ⟨fun q hq => ?_, fun d' hd => ?_⟩
    · cases hq
    · cases hd
      exact h.error _ _ (Nat.zero_le _) hp
  · refine ⟨fun q hq => ?_, fun d hd => ?_⟩
    · cases hq
      exact hmake a c hp (h.ok _ _ _ (Nat.zero_le _) hp).2
    · cases hd

/-- **What the translators accept and reject.** -/
theorem translations_safe (source : Text) (context : TranslateContext) :
    Translates source (fun model => model.depth ≤ 128) (PromQl.translatePromql source context) ∧
      Translates source (fun model => model.depth ≤ 2) (LogQl.translateLogql source context) ∧
      Translates source (fun model => model.nesting ≤ 386 ∧ model.depth ≤ source.length)
        (TraceQl.translateTraceql source context) := by
  refine ⟨?_, ?_, ?_⟩
  · exact (PromQl.safe_parseQuery context).translates fun e c _ h => h
  · have hquery : LogQl.translateLogql source context = translate source (id <$> LogQl.parseQuery) := by
      rw [LogQl.translateLogql, id_map]
    rw [hquery]
    exact LogQl.safe_parseQuery.translates fun q c _ h => h
  · refine TraceQl.safe_parseQuery.translates fun e c he h => ⟨h, ?_⟩
    have hweight := TraceQl.weighs_parseQuery _ _ _ he
    exact (Nat.le_add_right _ _).trans hweight

/-! ## Long chains and ends -/

namespace TraceQl

theorem depth_unions (n : ℕ) : depth (unions n).value = n + 1 := by
  induction n with
  | zero => rfl
  | succ n ih =>
    show 1 + max (depth (unions n).value) 1 = n + 1 + 1
    omega

/-- No bound holds for the depth of all trees, and a diagnostic may end beyond its source. -/
theorem depth_unbounded :
    (¬∃ bound, ∀ source context q, translateTraceql source context = .ok q → q.model.depth ≤ bound) ∧
      translateTraceql "\x7bduration>".toList ⟨[]⟩ =
        .error ⟨.syntaxError, ⟨10, 11⟩, "expected duration".toList⟩ ∧ byteLen "\x7bduration>".toList = 10 := by
  refine ⟨?_, rfl, rfl⟩
  rintro ⟨bound, h⟩
  have hblank : ∀ ch ∈ ([] : Text), isWhitespace ch = true := by simp
  have htranslated : translateTraceql (spaced (unionTokens bound)) ⟨[]⟩ = .ok (.trace (unions bound).value) := by
    rw [@translate_written _ _ (.blank [] hblank) (written_spaced _)]
    exact ⟨_, assigned_eq_some.mpr ⟨_, derives_unionTokens 127 bound, rfl⟩, rfl⟩
  have hle := h _ _ _ htranslated
  have hdepth : (TranslatedQuery.trace (unions bound).value).model.depth = bound + 1 := depth_unions bound
  rw [hdepth] at hle
  exact Nat.not_succ_le_self bound hle

end TraceQl

end Imbh.Syntax
