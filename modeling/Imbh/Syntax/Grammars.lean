import Imbh.Lib.FloatText
import Imbh.Syntax.LogGrammar
import Imbh.Syntax.PromGrammar

/-!
# The translators and their grammars

* `translators_exact` — each translator accepts the texts of its expressions and no others, and gives the
  expression; every expression that names what the grammar can name has a text.
-/

namespace Imbh.Syntax

open Lib Lgtm List

namespace PromQl

/-! ## Expressions of PromQL that have a text -/

/-- The labels of a grouping. -/
def groupedLabels : Grouping → List Text
  | .by labels => labels
  | .without labels => labels

/-- The expressions within so many levels, whose metrics resolve and whose names are words. -/
inductive Expressible (context : TranslateContext) : ℕ → PromExpr → Prop
  | selector {room : ℕ} {name storage : Text} {matchers : List LabelMatcher} (hname : IsWord name)
      (hword : name ∉ dialectWords) (hmetric : ResolvesAny context name storage)
      (hmatchers : ∀ m ∈ matchers, IsWord m.name) :
      Expressible context (room + 1) (.selector (nameMatcher storage :: matchers))
  | rate {room : ℕ} {name storage : Text} {matchers : List LabelMatcher} {window : ℕ} (hname : IsWord name)
      (hmetric : Resolves context name .cumulativeCounter storage) (hmatchers : ∀ m ∈ matchers, IsWord m.name)
      (hwindow : window < 2 ^ 64) : Expressible context (room + 1) (.rate (nameMatcher storage :: matchers) window)
  | histogramQuantile {room : ℕ} {phi : F64} {name storage : Text} {matchers : List LabelMatcher} {window : ℕ}
      {labels : List Text} (hphi : F64.isNaN phi = false) (hname : IsWord name)
      (hmetric : Resolves context name .cumulativeHistogram storage) (hmatchers : ∀ m ∈ matchers, IsWord m.name)
      (hwindow : window < 2 ^ 64) (hlabels : ∀ label ∈ labels, IsWord label) :
      Expressible context (room + 2) (.histogramQuantile phi (nameMatcher storage :: matchers) window (.by labels))
  | aggregate {room : ℕ} {op : PromAggregate} {grouping : Grouping} {input : PromExpr}
      (hlabels : ∀ label ∈ groupedLabels grouping, IsWord label) (h : Expressible context room input) :
      Expressible context (room + 1) (.aggregate op grouping input)

section

variable {context : TranslateContext}

theorem exists_selectorTokens {matchers : List LabelMatcher} (h : ∀ m ∈ matchers, IsWord m.name) :
    ∃ ts, SelectorTokens matchers ts ∧ ∀ t ∈ ts, t.Spellable := by
  have hmatchers : ∀ m ∈ matchers, ∃ ts, MatcherTokens LabelMatcher.mk m ts ∧ ∀ t ∈ ts, t.Spellable :=
    fun m hm => exists_matcherTokens (h m hm) m.op m.value
  obtain ⟨ts, hts, hspell⟩ := exists_listTokens hmatchers
  refine ⟨_, .braces hts, ?_⟩
  simp only [forall_mem_cons, forall_mem_append]
  simpa [marks] using hspell

theorem exists_rateTokens {kind : MetricKind} {name storage : Text} {matchers : List LabelMatcher} {window : ℕ}
    (hname : IsWord name) (hmetric : Resolves context name kind storage) (hmatchers : ∀ m ∈ matchers, IsWord m.name)
    (hwindow : window < 2 ^ 64) : ∃ ts, RateTokens context kind (nameMatcher storage :: matchers) window ts ∧
      ∀ t ∈ ts, t.Spellable := by
  obtain ⟨ts, hts, hspell⟩ := exists_selectorTokens hmatchers
  refine ⟨_, .mk hmetric hts, ?_⟩
  simp only [forall_mem_cons, forall_mem_append]
  simpa [hname, marks] using ⟨hspell, hwindow⟩

theorem exists_groupingTokens {grouping : Grouping} (h : ∀ label ∈ groupedLabels grouping, IsWord label) :
    ∃ ts, GroupingTokens grouping ts ∧ ∀ t ∈ ts, t.Spellable := by
  have hby : IsWord "by".toList := by decide
  have hwithout : IsWord "without".toList := by decide
  cases grouping with
  | «by» labels =>
    obtain ⟨ts, hts, hspell⟩ := exists_wordTokens h
    refine ⟨_, .by hts, ?_⟩
    simp only [forall_mem_cons, forall_mem_append]
    exact ⟨by simpa using hby, by simp [marks], hspell, by simp [marks]⟩
  | without labels =>
    obtain ⟨ts, hts, hspell⟩ := exists_wordTokens h
    refine ⟨_, .without hts, ?_⟩
    simp only [forall_mem_cons, forall_mem_append]
    exact ⟨by simpa using hwithout, by simp [marks], hspell, by simp [marks]⟩

/-- A number that is no NaN has a text of the characters of numbers. -/
theorem exists_number {phi : F64} (h : F64.isNaN phi = false) :
    ∃ digits, parseF64 digits = some phi ∧ (Token.number digits).Spellable := by
  obtain ⟨digits, hdigits, hparse⟩ := exists_numberText h
  refine ⟨digits, hparse, Token.spellable_number.mpr ⟨?_, fun ch hch => ?_⟩⟩
  · rintro rfl
    have hnone : parseF64 [] = none := by decide
    rw [hnone] at hparse
    cases hparse
  · rcases hdigits ch hch with h | rfl | rfl
    · simp [isNumberChar, h]
    · decide
    · decide

theorem exists_written {room : ℕ} {expression : PromExpr} (h : Expressible context room expression) :
    ∃ ts, Written context room expression ts ∧ ∀ t ∈ ts, t.Spellable := by
  induction h with
  | selector hname hword hmetric hmatchers =>
    obtain ⟨ts, hts, hspell⟩ := exists_selectorTokens hmatchers
    exact ⟨_, .selector hword hmetric hts, forall_mem_cons.mpr ⟨Token.spellable_word.mpr hname, hspell⟩⟩
  | rate hname hmetric hmatchers hwindow =>
    obtain ⟨ts, hts, hspell⟩ := exists_rateTokens hname hmetric hmatchers hwindow
    have hrate : IsWord "rate".toList := by decide
    refine ⟨_, .rate hts, ?_⟩
    simp only [forall_mem_cons]
    exact ⟨by simpa using hrate, by simp [marks], hspell⟩
  | @histogramQuantile room phi name storage matchers window labels hphi hname hmetric hmatchers hwindow hlabels =>
    obtain ⟨digits, hparse, hdigits⟩ := exists_number hphi
    obtain ⟨ts, hts, hspell⟩ := exists_rateTokens hname hmetric hmatchers hwindow
    have hle : IsWord "le".toList := by decide
    have hall : ∀ label ∈ groupedLabels (.by ("le".toList :: labels)), IsWord label :=
      forall_mem_cons.mpr ⟨hle, hlabels⟩
    obtain ⟨before, hbefore, hgrouping⟩ := exists_groupingTokens hall
    have hwritten : Written context (room + 2) _ _ :=
      .histogramQuantile hparse (.before hbefore) mem_cons_self hts
    rw [erase_cons_head] at hwritten
    have hquantile : IsWord "histogram_quantile".toList := by decide
    have hsum : IsWord "sum".toList := by decide
    have hrate : IsWord "rate".toList := by decide
    refine ⟨_, hwritten, ?_⟩
    simp only [forall_mem_cons, forall_mem_append, Token.spellable_word]
    exact ⟨hquantile, by simp [marks], hdigits, by simp [marks], hsum, hgrouping, by simp [marks], hrate,
      by simp [marks], hspell, by simp [marks], by simp [marks]⟩
  | @aggregate room op grouping input hlabels _ ih =>
    obtain ⟨ts, hts, hspell⟩ := ih
    obtain ⟨before, hbefore, hgrouping⟩ := exists_groupingTokens hlabels
    obtain ⟨word, hop, hword⟩ : ∃ word, (word, op) ∈ aggregateNames ∧ IsWord word := by
      cases op with
      | sum => exact ⟨"sum".toList, by simp [aggregateNames], by decide⟩
      | avg => exact ⟨"avg".toList, by simp [aggregateNames], by decide⟩
      | min => exact ⟨"min".toList, by simp [aggregateNames], by decide⟩
      | max => exact ⟨"max".toList, by simp [aggregateNames], by decide⟩
      | count => exact ⟨"count".toList, by simp [aggregateNames], by decide⟩
    refine ⟨_, .aggregate hop (.before hbefore) hts, ?_⟩
    simp only [forall_mem_cons, forall_mem_append, Token.spellable_word]
    exact ⟨hword, hgrouping, by simp [marks], hspell, by simp [marks]⟩

end

end PromQl

namespace LogQl

/-! ## Queries of LogQL that have a text -/

/-- Filters of labels with names, and filters of lines behind them. -/
inductive Selects : LogFilter → Prop
  | mk {labels lines : List LogFilter}
      (hlabels : ∀ filter ∈ labels, ∃ name op value, IsWord name ∧ filter = labelFilter name op value)
      (hlines : ∀ filter ∈ lines, ∃ token make value, (token, make) ∈ lineTokens ∧ filter = make value) :
      Selects (filterOf (labels ++ lines))

inductive Expressible : TranslatedQuery → Prop
  | selector {filter : LogFilter} (h : Selects filter) : Expressible (.logSelector filter)
  | range {filter : LogFilter} {window offset : ℕ} {op : LogRangeOp} {grouping : Option Grouping} (h : Selects filter)
      (hwindow : window < 2 ^ 64) (hoffset : offset < 2 ^ 64)
      (hgrouping : ∀ g ∈ grouping, ∃ labels, g = .by labels ∧ ∀ label ∈ labels, IsWord label) :
      Expressible (.log ⟨filter, window, offset, op, grouping⟩)

theorem exists_lineTokens {lines : List LogFilter}
    (h : ∀ filter ∈ lines, ∃ token make value, (token, make) ∈ lineTokens ∧ filter = make value) :
    ∃ ts, LineTokens lines ts ∧ ∀ t ∈ ts, t.Spellable := by
  induction lines with
  | nil => exact ⟨[], .nil, by simp⟩
  | cons filter lines ih =>
    obtain ⟨⟨token, make, value, hop, rfl⟩, hlines⟩ := forall_mem_cons.mp h
    obtain ⟨ts, hts, hspell⟩ := ih hlines
    refine ⟨_, .cons hop hts, ?_⟩
    simp only [forall_mem_cons]
    exact ⟨Token.spellable_mark.mpr (lineToken_mem hop), Token.spellable_quoted value, hspell⟩

theorem exists_filterTokens {filter : LogFilter} (h : Selects filter) :
    ∃ ts, FilterTokens filter ts ∧ ts ≠ [] ∧ ∀ t ∈ ts, t.Spellable := by
  obtain ⟨hlabels, hlines⟩ := h
  obtain ⟨us, hus, huspell⟩ := exists_listTokens (W := MatcherTokens labelFilter) fun filter hfilter => by
    obtain ⟨name, op, value, hname, rfl⟩ := hlabels filter hfilter
    exact exists_matcherTokens hname op value
  obtain ⟨vs, hvs, hvspell⟩ := exists_lineTokens hlines
  refine ⟨_, .mk (.braces hus) hvs, by simp, ?_⟩
  simp only [forall_mem_cons, forall_mem_append]
  exact ⟨⟨by simp [marks], huspell, by simp [marks]⟩, hvspell⟩

theorem exists_rangeTokens {filter : LogFilter} {window offset : ℕ} (h : Selects filter) (hwindow : window < 2 ^ 64)
    (hoffset : offset < 2 ^ 64) : ∃ ts, RangeTokens filter window offset ts ∧ ∀ t ∈ ts, t.Spellable := by
  obtain ⟨us, hus, -, hspell⟩ := exists_filterTokens h
  refine ⟨_, .mk hus (.behind offset), ?_⟩
  simp only [forall_mem_cons, forall_mem_append, Token.spellable_duration]
  exact ⟨by simp [marks], hspell, by simp [marks], hwindow, by simp [marks],
    ⟨by simp [marks], hoffset, by simp⟩, by simp [marks]⟩

theorem exists_written {query : TranslatedQuery} (h : Expressible query) :
    ∃ ts, Written query ts ∧ ∀ t ∈ ts, t.Spellable := by
  cases h with
  | selector h =>
    obtain ⟨ts, hts, hne, hspell⟩ := exists_filterTokens h
    exact ⟨ts, .selector hts hne, hspell⟩
  | @range filter window offset op grouping h hwindow hoffset hgrouping =>
    obtain ⟨ts, hts, hspell⟩ := exists_rangeTokens h hwindow hoffset
    obtain ⟨word, hop, hword⟩ : ∃ word, (word, op) ∈ rangeOps ∧ IsWord word := by
      cases op with
      | countOverTime => exact ⟨"count_over_time".toList, by simp [rangeOps], by decide⟩
      | rate => exact ⟨"rate".toList, by simp [rangeOps], by decide⟩
    cases grouping with
    | none => exact ⟨_, .range hop hts, forall_mem_cons.mpr ⟨Token.spellable_word.mpr hword, hspell⟩⟩
    | some g =>
      obtain ⟨labels, rfl, hlabels⟩ := hgrouping g rfl
      obtain ⟨us, hus, huspell⟩ := exists_wordTokens hlabels
      have hsum : IsWord "sum".toList := by decide
      have hby : IsWord "by".toList := by decide
      refine ⟨_, .sumBy hop hus hts, ?_⟩
      simp only [forall_mem_cons, forall_mem_append, Token.spellable_word]
      exact ⟨hsum, hby, by simp [marks], huspell, by simp [marks], by simp [marks], hword, hspell, by simp [marks]⟩

end LogQl

/-! ## The translators -/

/-- Each translator accepts the texts of its expressions and no others, and every expression that names what
the grammar can name has a text. -/
theorem translators_exact :
    (∀ source context query, PromQl.translatePromql source context = .ok query ↔
      ∃ expression, query = .prom expression ∧ PromQl.Renders context expression source) ∧
    (∀ source context query, LogQl.translateLogql source context = .ok query ↔ LogQl.Renders query source) ∧
    (∀ context expression, PromQl.Expressible context 128 expression →
      ∃ source, PromQl.Renders context expression source) ∧
    ∀ query, LogQl.Expressible query → ∃ source, LogQl.Renders query source := by
  refine ⟨fun source context query => PromQl.translatePromql_ok_iff,
    fun source context query => LogQl.translateLogql_ok_iff, fun context expression h => ?_, fun query h => ?_⟩
  · obtain ⟨ts, hts, hspell⟩ := PromQl.exists_written h
    obtain ⟨source, hsource⟩ := exists_spelled hspell
    exact ⟨source, ts, hts, hsource⟩
  · obtain ⟨ts, hts, hspell⟩ := LogQl.exists_written h
    obtain ⟨source, hsource⟩ := exists_spelled hspell
    exact ⟨source, ts, hts, hsource⟩

/-- LogQL groups only before the operand, and knows no parentheses around an aggregation. -/
theorem suffix_sum_rejected :
    (∃ d, LogQl.translateLogql "sum(rate({}[1s])) by (app)".toList ⟨[]⟩ = .error d) ∧
    (∃ d, LogQl.translateLogql "(rate({}[1s]))".toList ⟨[]⟩ = .error d) ∧
    LogQl.translateLogql "sum by (app) (rate({}[1s]))".toList ⟨[]⟩ =
      .ok (.log ⟨.all, 1000000000, 0, .rate, some (.by ["app".toList])⟩) := by
  refine ⟨⟨_, rfl⟩, ⟨_, rfl⟩, rfl⟩

end Imbh.Syntax
