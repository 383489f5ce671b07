import Imbh.Syntax.PromQl
import Imbh.Syntax.Phrases

/-!
# The grammar of PromQL

`Written` says of which tokens an expression may consist: parentheses may stand around it up to the
limit of nesting, and the grouping of an aggregation stands before its operand, behind it, or nowhere.
-/

namespace Imbh.Syntax.PromQl

open Lib Lgtm Syntax List

/-! ## Tokens of expressions -/

/-- The one metric of a name and a kind. -/
def Resolves (context : TranslateContext) (name : Text) (kind : MetricKind) (storage : Text) : Prop :=
  ∃ metric, (context.metrics.filter fun metric => metric.queryName = name ∧ metric.kind = kind) = [metric] ∧
    metric.storageName = storage

/-- The one metric of a name, which is no histogram. -/
def ResolvesAny (context : TranslateContext) (name : Text) (storage : Text) : Prop :=
  ∃ metric, (context.metrics.filter fun metric => metric.queryName = name) = [metric] ∧
    metric.kind ≠ .cumulativeHistogram ∧ metric.storageName = storage

/-- The words of the dialect. -/
def dialectWords : List Text := aggregateNames.map Prod.fst ++ ["rate".toList, "histogram_quantile".toList]

/-- Matchers in braces; without any the braces may be missing. -/
inductive SelectorTokens : List LabelMatcher → List Token → Prop
  | bare : SelectorTokens [] []
  | braces {matchers : List LabelMatcher} {ts : List Token}
      (h : ListTokens (MatcherTokens LabelMatcher.mk) matchers ts) :
      SelectorTokens matchers (.mark "\x7b".toList :: (ts ++ [.mark "\x7d".toList]))

inductive GroupingTokens : Grouping → List Token → Prop
  | by {labels : List Text} {ts : List Token} (h : ListTokens WordTokens labels ts) :
      GroupingTokens (.by labels) (.word "by".toList :: .mark "(".toList :: (ts ++ [.mark ")".toList]))
  | without {labels : List Text} {ts : List Token} (h : ListTokens WordTokens labels ts) :
      GroupingTokens (.without labels) (.word "without".toList :: .mark "(".toList :: (ts ++ [.mark ")".toList]))

/-- The grouping of an aggregation before the operand or behind it. -/
inductive Grouped : Grouping → List Token → List Token → Prop
  | before {grouping : Grouping} {ts : List Token} (h : GroupingTokens grouping ts) : Grouped grouping ts []
  | behind {grouping : Grouping} {ts : List Token} (h : GroupingTokens grouping ts) : Grouped grouping [] ts
  | nowhere : Grouped (.by []) [] []

/-- A selector with a window, up to the parenthesis that closes `rate`. -/
inductive RateTokens (context : TranslateContext) (kind : MetricKind) :
    List LabelMatcher → ℕ → List Token → Prop
  | mk {name storage : Text} {matchers : List LabelMatcher} {window : ℕ} {ts : List Token}
      (hname : Resolves context name kind storage) (hselector : SelectorTokens matchers ts) :
      RateTokens context kind (nameMatcher storage :: matchers) window
        (.word name :: (ts ++ [.mark "[".toList, .duration window, .mark "]".toList, .mark ")".toList]))

/-- The tokens of an expression that has room for so many levels. -/
inductive Written (context : TranslateContext) : ℕ → PromExpr → List Token → Prop
  | parens {room : ℕ} {expression : PromExpr} {ts : List Token} (h : Written context room expression ts) :
      Written context (room + 1) expression (.mark "(".toList :: (ts ++ [.mark ")".toList]))
  | selector {room : ℕ} {name storage : Text} {matchers : List LabelMatcher} {ts : List Token}
      (hword : name ∉ dialectWords) (hname : ResolvesAny context name storage)
      (hselector : SelectorTokens matchers ts) :
      Written context (room + 1) (.selector (nameMatcher storage :: matchers)) (.word name :: ts)
  | rate {room : ℕ} {matchers : List LabelMatcher} {window : ℕ} {ts : List Token}
      (h : RateTokens context .cumulativeCounter matchers window ts) :
      Written context (room + 1) (.rate matchers window) (.word "rate".toList :: .mark "(".toList :: ts)
  | histogramQuantile {room : ℕ} {digits : Text} {phi : F64} {labels : List Text} {matchers : List LabelMatcher}
      {window : ℕ} {before behind ts : List Token} (hphi : parseF64 digits = some phi)
      (hgrouped : Grouped (.by labels) before behind) (hle : "le".toList ∈ labels)
      (h : RateTokens context .cumulativeHistogram matchers window ts) :
      Written context (room + 2)
        (.histogramQuantile phi matchers window (.by (labels.erase "le".toList)))
        (.word "histogram_quantile".toList :: .mark "(".toList :: .number digits :: .mark ",".toList ::
          .word "sum".toList :: (before ++ .mark "(".toList :: .word "rate".toList :: .mark "(".toList ::
            (ts ++ .mark ")".toList :: (behind ++ [.mark ")".toList]))))
  | aggregate {room : ℕ} {word : Text} {op : PromAggregate} {grouping : Grouping} {input : PromExpr}
      {before behind ts : List Token} (hop : (word, op) ∈ aggregateNames)
      (hgrouped : Grouped grouping before behind) (h : Written context room input ts) :
      Written context (room + 1) (.aggregate op grouping input)
        (.word word :: (before ++ .mark "(".toList :: (ts ++ .mark ")".toList :: behind)))

/-- The texts of an expression. -/
def Renders (context : TranslateContext) (expression : PromExpr) (source : Text) : Prop :=
  ∃ ts, Written context 128 expression ts ∧ Spelled ts source

/-! ## Names -/

section

variable {source : Text} {context : TranslateContext} {name storage : Text} {kind : MetricKind} {range : SourceRange}

theorem resolveMetric_ok_iff :
    context.resolveMetric name kind range = .ok storage ↔ Resolves context name kind storage := by
  unfold TranslateContext.resolveMetric Resolves
  split
  · rename_i hnil
    rw [hnil]
    simp
  · rename_i metric hone
    rw [hone]
    simp
  · rename_i _ hmany
    simp only [reduceCtorEq, false_iff]
    rintro ⟨metric, h, -⟩
    exact hmany metric h

theorem resolveAnyMetric_ok_iff {metric : MetricResolution} : context.resolveAnyMetric name range = .ok metric ↔
    (context.metrics.filter fun metric => metric.queryName = name) = [metric] := by
  unfold TranslateContext.resolveAnyMetric
  split
  · rename_i hnil
    rw [hnil]
    simp
  · rename_i metric' hone
    rw [hone]
    simp
  · rename_i _ hmany
    simp only [reduceCtorEq, false_iff]
    exact hmany metric

/-! ## From tokens to expressions -/

variable {ts rest : List Token} {room : ℕ} {matchers : List LabelMatcher}

theorem Takes.lift {α : Type} {result : Except Diagnostic α} {a : α} (h : result = .ok a) :
    Takes (liftM result : Parse source α) [] a rest := by
  subst h
  exact fun s hs => ⟨s, hs, fun c hc => ⟨c, rfl, hc⟩⟩

theorem takes_parseSelector (h : SelectorTokens matchers ts) (hnext : NotNext '\x7b' rest) :
    @Takes source _ (parseSelector storage) ts (nameMatcher storage :: matchers) rest := by
  cases h with
  | bare => exact (Takes.consume_not _ rfl hnext).bind_none (Takes.pure _ rest)
  | @braces _ us h =>
    refine Takes.cons (Takes.consume _ _) ?_
    refine (Takes.commaList '\x7d' rfl (by decide) (by decide) ?_ ?_ h).bind_last (Takes.pure _ rest)
    · exact progress_listRound (safe_matcher (by simp) LabelMatcher.mk (P := Any) fun _ _ _ => trivial)
    · rintro matcher us rest ⟨name, op, value, rfl, rfl⟩
      exact ⟨⟨name, _, rfl⟩, takes_matcher ⟨name, op, value, rfl, rfl⟩⟩

theorem takes_parseRate {window : ℕ} (h : RateTokens context kind matchers window ts) :
    @Takes source _ (parseRate context kind) ts (matchers, window) rest := by
  obtain ⟨hname, hselector⟩ := h
  refine Takes.identifier fun range => ?_
  refine (Takes.lift (resolveMetric_ok_iff.mpr hname)).bind_none ?_
  refine (takes_parseSelector hselector (.mark (by simp) _)).bind ?_
  refine Takes.cons (Takes.expect _ _) (Takes.cons (Takes.durationNs _ ?_) ?_)
  · rintro _ ⟨⟩ ch ⟨⟩
    decide
  exact Takes.cons (Takes.expect _ _) (Takes.cons (Takes.expect _ _) (Takes.pure _ _))

/-! ### Groupings -/

theorem Takes.probe {α : Type} {p : Parse source α} {a : α} (h : ∀ s, Spelled rest s → ∃ t, Reads p s a t) :
    Takes (probe p) [] a rest := by
  intro s hs
  obtain ⟨t, hread⟩ := h s hs
  refine ⟨s, hs, fun c hc => ?_⟩
  obtain ⟨c', hc', -⟩ := hread c hc
  refine ⟨c, ?_, hc⟩
  unfold Imbh.Syntax.probe
  rw [hc']
  rfl

theorem reads_consumeKeyword {keyword s t : Text} (h : skip s = keyword ++ t) (hend : Ends isWordChar t) :
    @Reads source _ (consumeKeyword keyword) s true t := by
  rintro c rfl
  have hall : t.head?.all (fun ch => !isWordChar ch) = true := by
    rcases t with _ | ⟨ch, t⟩
    · rfl
    · simpa using hend ch rfl
  refine ⟨c.skipWs.advance keyword.length, ?_, by simp [h]⟩
  unfold consumeKeyword
  dsimp only
  rw [Cursor.skipWs_remaining, h, drop_left, if_pos]
  have hhere := isPrefixOf_iff_prefix.mpr (prefix_append keyword t)
  exact ⟨hhere, hall⟩

theorem reads_consumeKeyword_not {keyword s : Text} (ch : Char) (hkeyword : keyword.head? = some ch)
    (h : (skip s).head? ≠ some ch) : @Reads source _ (consumeKeyword keyword) s false (skip s) := by
  rintro c rfl
  have hnot := isPrefixOf_eq_false hkeyword h
  refine ⟨c.skipWs, ?_, by simp⟩
  unfold consumeKeyword
  dsimp only
  rw [Cursor.skipWs_remaining, if_neg fun hboth => Bool.false_ne_true (hnot.symm.trans hboth.1)]

theorem takes_parseGrouping {grouping : Grouping} (h : GroupingTokens grouping ts) :
    @Takes source _ parseGrouping ts grouping rest := by
  cases h with
  | «by» h =>
    refine Takes.identifier fun range => ?_
    dsimp only
    rw [if_pos rfl]
    exact Takes.cons (Takes.expect _ _) ((takes_groupingLabels h).bind_last (Takes.pure _ _))
  | without h =>
    -- as a variable, the keyword is compared as it is
    generalize hkeyword : "without".toList = keyword
    refine Takes.identifier fun range => ?_
    dsimp only
    have hne : keyword ≠ "by".toList := by simp [← hkeyword]
    rw [if_neg hne, if_pos hkeyword.symm]
    exact Takes.cons (Takes.expect _ _) ((takes_groupingLabels h).bind_last (Takes.pure _ _))

theorem takes_parseOptionalGrouping {grouping : Grouping} (h : GroupingTokens grouping ts) :
    @Takes source _ parseOptionalGrouping ts (some grouping) rest := by
  have hat : @Takes source _ (probe atGrouping) [] true (ts ++ rest) := by
    refine Takes.probe fun s hs => ?_
    cases h with
    | «by» h =>
      obtain ⟨text, t, hskip, ⟨-, rfl⟩, hapart, -⟩ := hs.uncons
      exact ⟨t, (reads_consumeKeyword hskip hapart).bind (Reads.pure _ _)⟩
    | without h =>
      obtain ⟨text, t, hskip, ⟨-, rfl⟩, hapart, -⟩ := hs.uncons
      refine ⟨t, (reads_consumeKeyword_not 'b' rfl ?_).bind (reads_consumeKeyword ?_ hapart)⟩
      · rw [hskip]
        simp
      · rw [skip_skip]
        exact hskip
  refine hat.bind_none ?_
  rw [if_pos rfl]
  exact (takes_parseGrouping h).bind_last (Takes.pure _ _)

theorem takes_parseOptionalGrouping_none (hby : NotNext 'b' rest) (hwithout : NotNext 'w' rest) :
    @Takes source _ parseOptionalGrouping [] none rest := by
  have hat : @Takes source _ (probe atGrouping) [] false rest := by
    refine Takes.probe fun s hs => ⟨skip s, ?_⟩
    refine (reads_consumeKeyword_not 'b' rfl (hs.head_ne hby)).bind ?_
    have hnot : @Reads source _ (consumeKeyword "without".toList) (skip s) false (skip (skip s)) := by
      refine reads_consumeKeyword_not 'w' rfl ?_
      rw [skip_skip]
      exact hs.head_ne hwithout
    rwa [skip_skip] at hnot
  refine hat.bind_none ?_
  rw [if_neg Bool.false_ne_true]
  exact Takes.pure _ _

/-- The grouping of an aggregation is read at its place. -/
theorem takes_grouped {grouping : Grouping} {before behind : List Token} (h : Grouped grouping before behind) :
    ∃ g₁ g₂ g : Option Grouping,
      (∀ rest, NotNext 'b' rest → NotNext 'w' rest → @Takes source _ parseOptionalGrouping before g₁ rest) ∧
      (∀ rest, NotNext 'b' rest → NotNext 'w' rest → @Takes source _ parseOptionalGrouping behind g₂ rest) ∧
      (∀ rest, @Takes source _ (theGrouping g₁ g₂) [] g rest) ∧
      (g = some grouping ∨ g = none ∧ grouping = .by []) := by
  have hone (g₁ g₂ : Option Grouping) (hnot : ¬ (g₁.isSome ∧ g₂.isSome)) (rest : List Token) :
      @Takes source _ (theGrouping g₁ g₂) [] (g₁.or g₂) rest := by
    unfold theGrouping
    rw [if_neg hnot]
    exact Takes.pure _ _
  cases h with
  | before h =>
    exact ⟨some grouping, none, _, fun _ _ _ => takes_parseOptionalGrouping h,
      fun _ => takes_parseOptionalGrouping_none, hone _ _ (by simp), .inl rfl⟩
  | behind h =>
    exact ⟨none, some grouping, _, fun _ => takes_parseOptionalGrouping_none,
      fun _ _ _ => takes_parseOptionalGrouping h, hone _ _ (by simp), .inl rfl⟩
  | nowhere =>
    exact ⟨none, none, _, fun _ => takes_parseOptionalGrouping_none, fun _ => takes_parseOptionalGrouping_none,
      hone _ _ (by simp), .inr ⟨rfl, rfl⟩⟩

/-! ### Expressions -/

/-- An expression is over, or in parentheses. -/
def Over (rest : List Token) : Prop := ∀ t ∈ rest.head?, t = .mark ")".toList

theorem Over.notNext (h : Over rest) {ch : Char} (hch : ch ≠ ')') : NotNext ch rest := by
  intro t ht hbegins
  rw [h t ht] at hbegins
  exact hch (Option.some.inj hbegins).symm

theorem over_paren (rest : List Token) : Over (.mark ")".toList :: rest) := by
  rintro _ ⟨⟩
  rfl

theorem takes_parseHistogramQuantile {digits : Text} {phi : F64} {labels : List Text} {window : ℕ}
    {before behind : List Token} (hphi : parseF64 digits = some phi) (hgrouped : Grouped (.by labels) before behind)
    (hle : "le".toList ∈ labels) (h : RateTokens context .cumulativeHistogram matchers window ts) :
    @Takes source _ (parseHistogramQuantile context (room + 1))
      (.mark "(".toList :: .number digits :: .mark ",".toList ::
        .word "sum".toList :: (before ++ .mark "(".toList :: .word "rate".toList :: .mark "(".toList ::
          (ts ++ .mark ")".toList :: (behind ++ [.mark ")".toList]))))
      (.histogramQuantile phi matchers window (.by (labels.erase "le".toList))) rest := by
  obtain ⟨g₁, g₂, g, hbefore, hbehind, hgrouping, hresult⟩ := @takes_grouped source _ _ _ hgrouped
  have hg : g = some (.by labels) := by
    rcases hresult with rfl | ⟨-, hnone⟩
    · rfl
    · cases hnone
      exact absurd hle (by simp)
  refine Takes.cons (Takes.expect _ _) (Takes.cons (Takes.float hphi ?_) ?_)
  · rintro _ ⟨⟩ ch ⟨⟩
    decide
  refine Takes.cons (Takes.expect _ _) (Takes.identifier fun range => ?_)
  dsimp only
  rw [if_neg (not_not_intro rfl)]
  refine (hbefore _ (.mark (by simp) _) (.mark (by simp) _)).bind ?_
  refine Takes.cons (Takes.expect _ _) (Takes.identifier fun range => ?_)
  dsimp only
  rw [if_neg (not_not_intro rfl)]
  refine Takes.cons (Takes.expect _ _) ((takes_parseRate h).bind ?_)
  refine Takes.cons (Takes.expect _ _) ((hbehind _ (.mark (by simp) _) (.mark (by simp) _)).bind ?_)
  refine (hgrouping _).bind_none ?_
  have hlabels : @Takes source _ (quantileLabels g) [] (labels.erase "le".toList) ([.mark ")".toList] ++ rest) := by
    subst hg
    unfold quantileLabels
    dsimp only
    rw [if_pos hle]
    exact Takes.pure _ _
  exact hlabels.bind_none ((Takes.expect _ _).bind_last (Takes.pure _ _))

theorem find?_aggregateNames {word : Text} {op : PromAggregate} (h : (word, op) ∈ aggregateNames) :
    aggregateNames.find? (fun aggregate => aggregate.1 = word) = some (word, op) := by
  simp only [aggregateNames, mem_cons, Prod.mk.injEq, not_mem_nil, or_false] at h
  rcases h with ⟨rfl, rfl⟩ | ⟨rfl, rfl⟩ | ⟨rfl, rfl⟩ | ⟨rfl, rfl⟩ | ⟨rfl, rfl⟩ <;> rfl

theorem find?_aggregateNames_none {name : Text} (h : name ∉ dialectWords) :
    aggregateNames.find? (fun aggregate => aggregate.1 = name) = none := by
  rw [find?_eq_none]
  rintro aggregate hmem heq
  refine h (mem_append_left _ (mem_map.mpr ⟨aggregate, hmem, ?_⟩))
  exact of_decide_eq_true heq

/-- The parser reads every sequence of tokens of an expression as the expression. -/
theorem parseExpression_takes {expression : PromExpr} (h : Written context room expression ts) (hrest : Over rest) :
    @Takes source _ (parseExpression context room) ts expression rest := by
  induction h generalizing rest with
  | parens _ ih =>
    refine Takes.cons (Takes.consume _ _) ?_
    rw [if_pos rfl]
    exact (ih (over_paren rest)).bind ((Takes.expect _ _).bind_last (Takes.pure _ _))
  | @selector room name storage matchers ts hword hname hselector =>
    refine (Takes.consume_not '(' rfl (.word (by decide) _ _)).bind_none ?_
    rw [if_neg Bool.false_ne_true]
    refine Takes.identifier fun range => ?_
    obtain ⟨metric, hone, hkind, rfl⟩ := hname
    have hrate : name ≠ "rate".toList := fun h => hword (by simp [dialectWords, h])
    have hquantile : name ≠ "histogram_quantile".toList := fun h => hword (by simp [dialectWords, h])
    dsimp only
    rw [find?_aggregateNames_none hword]
    dsimp only
    rw [if_neg hrate, if_neg hquantile]
    refine (Takes.lift (resolveAnyMetric_ok_iff.mpr hone)).bind_none ?_
    rw [if_neg hkind]
    exact (takes_parseSelector hselector (hrest.notNext (by decide))).bind_last (Takes.pure _ _)
  | rate h =>
    refine (Takes.consume_not '(' rfl (.word (by decide) _ _)).bind_none ?_
    rw [if_neg Bool.false_ne_true]
    refine Takes.identifier fun range => ?_
    have hnone : aggregateNames.find? (fun aggregate => aggregate.1 = "rate".toList) = none := by rfl
    dsimp only
    rw [hnone]
    dsimp only
    rw [if_pos rfl]
    exact Takes.cons (Takes.expect _ _) ((takes_parseRate h).bind_last (Takes.pure _ _))
  | histogramQuantile hphi hgrouped hle h =>
    refine (Takes.consume_not '(' rfl (.word (by decide) _ _)).bind_none ?_
    rw [if_neg Bool.false_ne_true]
    refine Takes.identifier fun range => ?_
    have hnone : aggregateNames.find? (fun aggregate => aggregate.1 = "histogram_quantile".toList) = none := by rfl
    have hrate : "histogram_quantile".toList ≠ "rate".toList := by simp
    dsimp only
    rw [hnone]
    dsimp only
    rw [if_neg hrate, if_pos rfl]
    exact takes_parseHistogramQuantile hphi hgrouped hle h
  | @aggregate room word op grouping input before behind ts hop hgrouped _ ih =>
    refine (Takes.consume_not '(' rfl (.word (by decide) _ _)).bind_none ?_
    rw [if_neg Bool.false_ne_true]
    refine Takes.identifier fun range => ?_
    obtain ⟨g₁, g₂, g, hbefore, hbehind, hgrouping, hresult⟩ := @takes_grouped source _ _ _ hgrouped
    have hg : g.getD (.by []) = grouping := by
      rcases hresult with rfl | ⟨rfl, rfl⟩ <;> rfl
    dsimp only
    rw [find?_aggregateNames hop]
    refine (hbefore _ (.mark (by simp) _) (.mark (by simp) _)).bind ?_
    refine Takes.cons (Takes.expect _ _) ((ih (over_paren _)).bind (Takes.cons (Takes.expect _ _) ?_))
    refine (hbehind _ (hrest.notNext (by decide)) (hrest.notNext (by decide))).bind_last ?_
    rw [← hg]
    exact (hgrouping rest).bind_none (Takes.pure _ _)

/-! ## From expressions to tokens -/

theorem lift_ok {α : Type} {result : Except Diagnostic α} {a : α} {c c' : Cursor source}
    (h : (liftM result : Parse source α) c = .ok (a, c')) : result = .ok a ∧ c' = c := by
  rcases result with d | b
  · cases h
  · cases h
    exact ⟨rfl, rfl⟩

theorem parseSelector_yields : @Yields source _ (parseSelector storage) fun all ts =>
    ∃ matchers, all = nameMatcher storage :: matchers ∧ SelectorTokens matchers ts := by
  intro c all c' h
  obtain ⟨found, c₁, hfound, hrest⟩ := run_bind_ok.mp h
  obtain ⟨ts, rfl, hspelled⟩ := yields_consume (by simp [marks]) _ _ _ hfound
  split at hrest
  · rename_i htrue
    obtain ⟨matchers, c₂, hmatchers, hresult⟩ := run_bind_ok.mp hrest
    obtain ⟨rfl, rfl⟩ := run_pure_ok.mp hresult
    obtain ⟨us, ⟨vs, hvs, rfl⟩, hspelled'⟩ := yields_commaList (by simp [marks]) yields_matcher _ _ _ hmatchers
    rw [if_pos htrue] at hspelled
    exact ⟨_, ⟨matchers, rfl, .braces hvs⟩, fun rest hrest => hspelled _ (hspelled' rest hrest)⟩
  · rename_i hfalse
    obtain ⟨rfl, rfl⟩ := run_pure_ok.mp hrest
    rw [if_neg hfalse] at hspelled
    exact ⟨_, ⟨[], rfl, .bare⟩, hspelled⟩

theorem parseRate_yields : @Yields source _ (parseRate context kind) fun result ts =>
    RateTokens context kind result.1 result.2 ts := by
  intro c result c' h
  obtain ⟨name, c₁, hname, h₁⟩ := run_bind_ok.mp h
  obtain ⟨storage, c₂, hstorage, h₂⟩ := run_bind_ok.mp h₁
  obtain ⟨hresolve, rfl⟩ := lift_ok hstorage
  obtain ⟨matchers, c₃, hmatchers, h₃⟩ := run_bind_ok.mp h₂
  obtain ⟨u₁, c₄, hopen, h₄⟩ := run_bind_ok.mp h₃
  obtain ⟨window, c₅, hwindow, h₅⟩ := run_bind_ok.mp h₄
  obtain ⟨u₂, c₆, hclose, h₆⟩ := run_bind_ok.mp h₅
  obtain ⟨u₃, c₇, hparen, h₇⟩ := run_bind_ok.mp h₆
  obtain ⟨rfl, rfl⟩ := run_pure_ok.mp h₇
  obtain ⟨_, ⟨-, rfl⟩, s₁⟩ := yields_identifier _ _ _ hname
  obtain ⟨ts, ⟨matchers, rfl, hselector⟩, s₂⟩ := parseSelector_yields _ _ _ hmatchers
  obtain ⟨_, rfl, s₃⟩ := yields_expect (by simp [marks]) _ _ _ hopen
  obtain ⟨_, rfl, s₄⟩ := yields_durationNs _ _ _ hwindow
  obtain ⟨_, rfl, s₅⟩ := yields_expect (by simp [marks]) _ _ _ hclose
  obtain ⟨_, rfl, s₆⟩ := yields_expect (by simp [marks]) _ _ _ hparen
  refine ⟨_, .mk (resolveMetric_ok_iff.mp hresolve) hselector, fun rest hrest => ?_⟩
  have hall := s₁ _ (s₂ _ (s₃ _ (s₄ _ (s₅ _ (s₆ rest hrest)))))
  simpa using hall

theorem parseGrouping_yields : @Yields source _ parseGrouping GroupingTokens := by
  intro c grouping c' h
  obtain ⟨⟨keyword, range⟩, c₁, hkeyword, h₁⟩ := run_bind_ok.mp h
  obtain ⟨_, ⟨-, rfl⟩, s₁⟩ := yields_identifier _ _ _ hkeyword
  dsimp only at h₁ s₁
  split at h₁
  · rename_i hby
    subst hby
    obtain ⟨_, ⟨labels, ts, hts, rfl, rfl⟩, s₂⟩ := yields_labels _ _ _ _ h₁
    exact ⟨_, .by hts, fun rest hrest => s₁ _ (s₂ rest hrest)⟩
  · split at h₁
    · rename_i hwithout
      subst hwithout
      obtain ⟨_, ⟨labels, ts, hts, rfl, rfl⟩, s₂⟩ := yields_labels _ _ _ _ h₁
      exact ⟨_, .without hts, fun rest hrest => s₁ _ (s₂ rest hrest)⟩
    · cases h₁

/-- The tokens of a grouping that may be missing. -/
def OptionalGrouping : Option Grouping → List Token → Prop
  | none, ts => ts = []
  | some grouping, ts => GroupingTokens grouping ts

theorem parseOptionalGrouping_yields : @Yields source _ parseOptionalGrouping OptionalGrouping := by
  intro c grouping c' h
  obtain ⟨found, c₁, hfound, h₁⟩ := run_bind_ok.mp h
  have hstill : c₁ = c := by
    unfold probe at hfound
    rcases hat : atGrouping c with d | ⟨b, c₂⟩
    · rw [hat] at hfound
      cases hfound
    · rw [hat] at hfound
      cases hfound
      rfl
  subst hstill
  split at h₁
  · obtain ⟨g, c₂, hg, h₂⟩ := run_bind_ok.mp h₁
    obtain ⟨rfl, rfl⟩ := run_pure_ok.mp h₂
    exact parseGrouping_yields _ _ _ hg
  · obtain ⟨rfl, rfl⟩ := run_pure_ok.mp h₁
    exact ⟨[], rfl, fun _ hrest => hrest⟩

/-- The groupings before the operand and behind it are not both there. -/
theorem theGrouping_ok {g₁ g₂ g : Option Grouping} {before behind : List Token} {c c' : Cursor source}
    (hbefore : OptionalGrouping g₁ before) (hbehind : OptionalGrouping g₂ behind)
    (h : theGrouping g₁ g₂ c = .ok (g, c')) : c' = c ∧ Grouped (g.getD (.by [])) before behind := by
  unfold theGrouping at h
  split at h
  · cases h
  · rename_i hnot
    obtain ⟨rfl, rfl⟩ := run_pure_ok.mp h
    refine ⟨rfl, ?_⟩
    rcases g₁ with _ | g₁ <;> rcases g₂ with _ | g₂
    · obtain rfl : before = [] := hbefore
      obtain rfl : behind = [] := hbehind
      exact .nowhere
    · obtain rfl : before = [] := hbefore
      exact .behind hbehind
    · obtain rfl : behind = [] := hbehind
      exact .before hbefore
    · exact absurd ⟨rfl, rfl⟩ hnot

theorem quantileLabels_ok {g : Option Grouping} {labels : List Text} {c c' : Cursor source}
    (h : quantileLabels g c = .ok (labels, c')) :
    c' = c ∧ ∃ all, g = some (.by all) ∧ "le".toList ∈ all ∧ labels = all.erase "le".toList := by
  unfold quantileLabels at h
  split at h
  · cases h
  · cases h
  · rename_i all
    split at h
    · rename_i hle
      obtain ⟨rfl, rfl⟩ := run_pure_ok.mp h
      exact ⟨rfl, all, rfl, hle, rfl⟩
    · cases h

theorem parseHistogramQuantile_yields : @Yields source _ (parseHistogramQuantile context room)
    fun expression ts => Written context (room + 1) expression (.word "histogram_quantile".toList :: ts) := by
  intro c expression c' h
  cases room with
  | zero => cases h
  | succ room =>
    obtain ⟨u₁, c₁, hopen, h₁⟩ := run_bind_ok.mp h
    obtain ⟨phi, c₂, hphi, h₂⟩ := run_bind_ok.mp h₁
    obtain ⟨u₂, c₃, hcomma, h₃⟩ := run_bind_ok.mp h₂
    obtain ⟨⟨sum, sumRange⟩, c₄, hsum, h₄⟩ := run_bind_ok.mp h₃
    obtain ⟨_, rfl, s₁⟩ := yields_expect (by simp [marks]) _ _ _ hopen
    obtain ⟨_, ⟨digits, hdigits, rfl⟩, s₂⟩ := yields_float _ _ _ hphi
    obtain ⟨_, rfl, s₃⟩ := yields_expect (by simp [marks]) _ _ _ hcomma
    obtain ⟨_, ⟨-, rfl⟩, s₄⟩ := yields_identifier _ _ _ hsum
    dsimp only at h₄ s₄
    split at h₄
    · cases h₄
    rename_i hissum
    obtain rfl := not_not.mp hissum
    obtain ⟨g₁, c₅, hbefore, h₅⟩ := run_bind_ok.mp h₄
    obtain ⟨u₃, c₆, hparen, h₆⟩ := run_bind_ok.mp h₅
    obtain ⟨⟨rate, rateRange⟩, c₇, hrate, h₇⟩ := run_bind_ok.mp h₆
    obtain ⟨before, htsbefore, s₅⟩ := parseOptionalGrouping_yields _ _ _ hbefore
    obtain ⟨_, rfl, s₆⟩ := yields_expect (by simp [marks]) _ _ _ hparen
    obtain ⟨_, ⟨-, rfl⟩, s₇⟩ := yields_identifier _ _ _ hrate
    dsimp only at h₇ s₇
    split at h₇
    · cases h₇
    rename_i hisrate
    obtain rfl := not_not.mp hisrate
    obtain ⟨u₄, c₈, hparen', h₈⟩ := run_bind_ok.mp h₇
    obtain ⟨⟨matchers, window⟩, c₉, hmatchers, h₉⟩ := run_bind_ok.mp h₈
    obtain ⟨u₅, c₁₀, hclose, h₁₀⟩ := run_bind_ok.mp h₉
    obtain ⟨g₂, c₁₁, hbehind, h₁₁⟩ := run_bind_ok.mp h₁₀
    obtain ⟨g, c₁₂, hgrouping, h₁₂⟩ := run_bind_ok.mp h₁₁
    obtain ⟨labels, c₁₃, hlabels, h₁₃⟩ := run_bind_ok.mp h₁₂
    obtain ⟨u₆, c₁₄, hend, h₁₄⟩ := run_bind_ok.mp h₁₃
    obtain ⟨rfl, rfl⟩ := run_pure_ok.mp h₁₄
    obtain ⟨_, rfl, s₈⟩ := yields_expect (by simp [marks]) _ _ _ hparen'
    obtain ⟨ts, hts, s₉⟩ := parseRate_yields _ _ _ hmatchers
    obtain ⟨_, rfl, s₁₀⟩ := yields_expect (by simp [marks]) _ _ _ hclose
    obtain ⟨behind, htsbehind, s₁₁⟩ := parseOptionalGrouping_yields _ _ _ hbehind
    obtain ⟨rfl, hgrouped⟩ := theGrouping_ok htsbefore htsbehind hgrouping
    obtain ⟨rfl, all, rfl, hle, rfl⟩ := quantileLabels_ok hlabels
    obtain ⟨_, rfl, s₁₂⟩ := yields_expect (by simp [marks]) _ _ _ hend
    refine ⟨_, .histogramQuantile hdigits hgrouped hle hts, fun rest hrest => ?_⟩
    have hinner := s₆ _ (s₇ _ (s₈ _ (s₉ _ (s₁₀ _ (s₁₁ _ (s₁₂ rest hrest))))))
    have hall := s₁ _ (s₂ _ (s₃ _ (s₄ _ (s₅ _ hinner))))
    simpa using hall

theorem parseAggregate_yields {word : Text} {op : PromAggregate} {operand : Parse source PromExpr}
    (hop : (word, op) ∈ aggregateNames) (hoperand : Yields operand (Written context room)) :
    Yields (parseAggregate op operand) fun expression ts =>
      Written context (room + 1) expression (.word word :: ts) := by
  intro c expression c' h
  obtain ⟨g₁, c₁, hbefore, h₁⟩ := run_bind_ok.mp h
  obtain ⟨u₁, c₂, hopen, h₂⟩ := run_bind_ok.mp h₁
  obtain ⟨input, c₃, hinput, h₃⟩ := run_bind_ok.mp h₂
  obtain ⟨u₂, c₄, hclose, h₄⟩ := run_bind_ok.mp h₃
  obtain ⟨g₂, c₅, hbehind, h₅⟩ := run_bind_ok.mp h₄
  obtain ⟨g, c₆, hgrouping, h₆⟩ := run_bind_ok.mp h₅
  obtain ⟨rfl, rfl⟩ := run_pure_ok.mp h₆
  obtain ⟨before, htsbefore, s₁⟩ := parseOptionalGrouping_yields _ _ _ hbefore
  obtain ⟨_, rfl, s₂⟩ := yields_expect (by simp [marks]) _ _ _ hopen
  obtain ⟨ts, hts, s₃⟩ := hoperand _ _ _ hinput
  obtain ⟨_, rfl, s₄⟩ := yields_expect (by simp [marks]) _ _ _ hclose
  obtain ⟨behind, htsbehind, s₅⟩ := parseOptionalGrouping_yields _ _ _ hbehind
  obtain ⟨rfl, hgrouped⟩ := theGrouping_ok htsbefore htsbehind hgrouping
  refine ⟨_, .aggregate hop hgrouped hts, fun rest hrest => ?_⟩
  have hall := s₁ _ (s₂ _ (s₃ _ (s₄ _ (s₅ rest hrest))))
  simpa using hall

theorem parseMetric_yields {name : Text} {range : SourceRange} (hword : name ∉ dialectWords) :
    @Yields source _ (parseMetric context name range) fun expression ts =>
      Written context (room + 1) expression (.word name :: ts) := by
  intro c expression c' h
  obtain ⟨metric, c₁, hmetric, h₁⟩ := run_bind_ok.mp h
  obtain ⟨hresolve, rfl⟩ := lift_ok hmetric
  split at h₁
  · cases h₁
  · rename_i hkind
    obtain ⟨all, c₂, hall, h₂⟩ := run_bind_ok.mp h₁
    obtain ⟨rfl, rfl⟩ := run_pure_ok.mp h₂
    obtain ⟨ts, ⟨matchers, rfl, hselector⟩, s₁⟩ := parseSelector_yields _ _ _ hall
    exact ⟨ts, .selector hword ⟨metric, resolveAnyMetric_ok_iff.mp hresolve, hkind, rfl⟩ hselector, s₁⟩

/-- What the parser reads is such a sequence. -/
theorem parseExpression_yields : @Yields source _ (parseExpression context room) (Written context room) := by
  induction room with
  | zero =>
    intro c expression c' h
    cases h
  | succ room ih =>
    intro c expression c' h
    obtain ⟨found, c₁, hfound, h₁⟩ := run_bind_ok.mp h
    obtain ⟨_, rfl, s₁⟩ := yields_consume (by simp [marks]) _ _ _ hfound
    split at h₁
    · rename_i htrue
      obtain ⟨input, c₂, hinput, h₂⟩ := run_bind_ok.mp h₁
      obtain ⟨u, c₃, hclose, h₃⟩ := run_bind_ok.mp h₂
      obtain ⟨rfl, rfl⟩ := run_pure_ok.mp h₃
      obtain ⟨ts, hts, s₂⟩ := ih _ _ _ hinput
      obtain ⟨_, rfl, s₃⟩ := yields_expect (by simp [marks]) _ _ _ hclose
      rw [if_pos htrue] at s₁
      refine ⟨_, .parens hts, fun rest hrest => ?_⟩
      have hall := s₁ _ (s₂ _ (s₃ rest hrest))
      simpa using hall
    · rename_i hfalse
      rw [if_neg hfalse] at s₁
      obtain ⟨⟨name, range⟩, c₂, hname, h₂⟩ := run_bind_ok.mp h₁
      obtain ⟨_, ⟨-, rfl⟩, s₂⟩ := yields_identifier _ _ _ hname
      dsimp only at h₂ s₂
      rcases hfind : aggregateNames.find? (fun aggregate => aggregate.1 = name) with _ | ⟨word, op⟩
      · rw [hfind] at h₂
        dsimp only at h₂
        split at h₂
        · rename_i hrate
          subst hrate
          obtain ⟨u, c₃, hopen, h₃⟩ := run_bind_ok.mp h₂
          obtain ⟨⟨matchers, window⟩, c₄, hmatchers, h₄⟩ := run_bind_ok.mp h₃
          obtain ⟨rfl, rfl⟩ := run_pure_ok.mp h₄
          obtain ⟨_, rfl, s₃⟩ := yields_expect (by simp [marks]) _ _ _ hopen
          obtain ⟨ts, hts, s₄⟩ := parseRate_yields _ _ _ hmatchers
          exact ⟨_, .rate hts, fun rest hrest => s₁ _ (s₂ _ (s₃ _ (s₄ rest hrest)))⟩
        · rename_i hrate
          split at h₂
          · rename_i hquantile
            subst hquantile
            cases room with
            | zero => cases h₂
            | succ room =>
              obtain ⟨ts, hts, s₃⟩ := parseHistogramQuantile_yields _ _ _ h₂
              exact ⟨_, hts, fun rest hrest => s₁ _ (s₂ _ (s₃ rest hrest))⟩
          · rename_i hquantile
            have hword : name ∉ dialectWords := by
              simp only [dialectWords, mem_append, mem_cons, not_mem_nil, or_false, not_or]
              refine ⟨?_, hrate, hquantile⟩
              rintro hname
              obtain ⟨aggregate, hmem, rfl⟩ := mem_map.mp hname
              exact find?_eq_none.mp hfind aggregate hmem (by simp)
            obtain ⟨ts, hts, s₃⟩ := parseMetric_yields hword _ _ _ h₂
            exact ⟨_, hts, fun rest hrest => s₁ _ (s₂ _ (s₃ rest hrest))⟩
      · have hmem := mem_of_find?_eq_some hfind
        obtain rfl : word = name := by simpa using find?_some hfind
        rw [hfind] at h₂
        obtain ⟨ts, hts, s₃⟩ := parseAggregate_yields hmem ih _ _ _ h₂
        exact ⟨_, hts, fun rest hrest => s₁ _ (s₂ _ (s₃ rest hrest))⟩

/-! ## The translator -/

/-- The translator accepts the texts of expressions, and gives the expression. -/
theorem translatePromql_ok_iff {query : TranslatedQuery} : translatePromql source context = .ok query ↔
    ∃ expression, query = .prom expression ∧ Renders context expression source := by
  have hparse (expression : PromExpr) :
      translate source (parseQuery context) = .ok expression ↔ Renders context expression source :=
    translate_ok_iff (fun _ _ _ => parseExpression_yields.spelled) fun _ _ h => parseExpression_takes h (by simp [Over])
  unfold translatePromql
  rw [translate_map]
  rcases htranslate : translate source (parseQuery context) with d | expression
  · simp only [Except.map, reduceCtorEq, false_iff, not_exists, not_and]
    rintro expression - hrenders
    rw [(hparse expression).mpr hrenders] at htranslate
    cases htranslate
  · simp only [Except.map, Except.ok.injEq]
    constructor
    · rintro rfl
      exact ⟨expression, rfl, (hparse expression).mp htranslate⟩
    · rintro ⟨expression', rfl, hrenders⟩
      rw [(hparse expression').mpr hrenders] at htranslate
      cases htranslate
      rfl

end

end Imbh.Syntax.PromQl
