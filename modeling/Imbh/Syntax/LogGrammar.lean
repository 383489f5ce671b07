import Imbh.Syntax.Phrases
import Imbh.Syntax.Translations

/-!
# The grammar of LogQL

`Written` says of which tokens a log query may consist: a stream selector with line filters behind it, or
a range aggregation around one, with a sum by labels around that or without.
-/

namespace Imbh.Syntax.LogQl

open Lib Lgtm Syntax List

/-! ## Tokens of queries -/

/-- Label filters in braces, or none. -/
inductive StreamTokens : List LogFilter → List Token → Prop
  | bare : StreamTokens [] []
  | braces {labels : List LogFilter} {ts : List Token} (h : ListTokens (MatcherTokens labelFilter) labels ts) :
      StreamTokens labels (.mark "\x7b".toList :: (ts ++ [.mark "\x7d".toList]))

/-- Line filters, one behind the other. -/
inductive LineTokens : List LogFilter → List Token → Prop
  | nil : LineTokens [] []
  | cons {token value : Text} {make : Text → LogFilter} {lines : List LogFilter} {ts : List Token}
      (hop : (token, make) ∈ lineTokens) (h : LineTokens lines ts) :
      LineTokens (make value :: lines) (.mark token :: .quoted value :: ts)

/-- Label filters and line filters as one filter. -/
inductive FilterTokens : LogFilter → List Token → Prop
  | mk {labels lines : List LogFilter} {us vs : List Token} (hstream : StreamTokens labels us)
      (hlines : LineTokens lines vs) : FilterTokens (filterOf (labels ++ lines)) (us ++ vs)

inductive OffsetTokens : ℕ → List Token → Prop
  | nowhere : OffsetTokens 0 []
  | behind (offset : ℕ) : OffsetTokens offset [.mark "offset".toList, .duration offset]

/-- A filter with its window and its offset, in parentheses. -/
inductive RangeTokens : LogFilter → ℕ → ℕ → List Token → Prop
  | mk {filter : LogFilter} {window offset : ℕ} {us vs : List Token} (hfilter : FilterTokens filter us)
      (hoffset : OffsetTokens offset vs) :
      RangeTokens filter window offset (.mark "(".toList ::
        (us ++ .mark "[".toList :: .duration window :: .mark "]".toList :: (vs ++ [.mark ")".toList])))

inductive Written : TranslatedQuery → List Token → Prop
  | selector {filter : LogFilter} {ts : List Token} (h : FilterTokens filter ts) (hne : ts ≠ []) :
      Written (.logSelector filter) ts
  | range {word : Text} {op : LogRangeOp} {filter : LogFilter} {window offset : ℕ} {ts : List Token}
      (hop : (word, op) ∈ rangeOps) (h : RangeTokens filter window offset ts) :
      Written (.log ⟨filter, window, offset, op, none⟩) (.word word :: ts)
  | sumBy {word : Text} {op : LogRangeOp} {labels : List Text} {filter : LogFilter} {window offset : ℕ}
      {us ts : List Token} (hop : (word, op) ∈ rangeOps) (hlabels : ListTokens WordTokens labels us)
      (h : RangeTokens filter window offset ts) :
      Written (.log ⟨filter, window, offset, op, some (.by labels)⟩)
        (.word "sum".toList :: .word "by".toList :: .mark "(".toList ::
          (us ++ .mark ")".toList :: .mark "(".toList :: .word word :: (ts ++ [.mark ")".toList])))

/-- The texts of a query. -/
def Renders (query : TranslatedQuery) (source : Text) : Prop := ∃ ts, Written query ts ∧ Spelled ts source

/-! ## From tokens to queries -/

section

variable {source : Text} {ts rest : List Token}

/-- The branch of the next character, behind whitespace. -/
theorem takes_peek {α : Type} {P : Option Char → Prop} {_ : DecidablePred P} {q r : Parse source α} {a : α}
    (h : ∀ s, Spelled (ts ++ rest) s → P (skip s).head?) (hq : Takes q ts a rest) :
    Takes (skipWs >>= fun _ => peek >>= fun next => if P next then q else r) ts a rest := by
  intro s hs
  obtain ⟨t, ht, hread⟩ := hq (skip s) hs.skip
  refine ⟨t, ht, (reads_skipWs s).bind ((reads_peek _).bind ?_)⟩
  rwa [if_pos (h s hs)]

theorem takes_peek_not {α : Type} {P : Option Char → Prop} {_ : DecidablePred P} {q r : Parse source α} {a : α}
    (h : ∀ s, Spelled (ts ++ rest) s → ¬ P (skip s).head?) (hr : Takes r ts a rest) :
    Takes (skipWs >>= fun _ => peek >>= fun next => if P next then q else r) ts a rest := by
  intro s hs
  obtain ⟨t, ht, hread⟩ := hr (skip s) hs.skip
  refine ⟨t, ht, (reads_skipWs s).bind ((reads_peek _).bind ?_)⟩
  rwa [if_neg (h s hs)]

theorem takes_parseStream {labels : List LogFilter} (h : StreamTokens labels ts) (hnext : NotNext '\x7b' rest) :
    @Takes source _ parseStream ts labels rest := by
  cases h with
  | bare => exact takes_peek_not (fun s hs => hs.head_ne hnext) (Takes.pure _ _)
  | @braces _ us h =>
    refine takes_peek (fun s hs => ?_) (Takes.cons (Takes.expect _ _) ?_)
    · obtain ⟨ch, t, hskip, hbegins⟩ := hs.begins
      rw [hskip]
      exact hbegins.symm
    · refine Takes.commaList '\x7d' rfl (by decide) (by decide) ?_ ?_ h
      · exact progress_listRound (safe_matcher (by simp) labelFilter (P := Any) fun _ _ _ => trivial)
      · rintro matcher us rest ⟨name, op, value, rfl, rfl⟩
        exact ⟨⟨name, _, rfl⟩, takes_matcher ⟨name, op, value, rfl, rfl⟩⟩

/-- No line filter comes next. -/
def NoLine (rest : List Token) : Prop := NotNext '|' rest ∧ NotNext '!' rest

theorem line_begins {token : Text} {make : Text → LogFilter} (h : (token, make) ∈ lineTokens) :
    token.head? = some '|' ∨ token.head? = some '!' := by
  simp only [lineTokens, mem_cons, Prod.mk.injEq, not_mem_nil, or_false] at h
  rcases h with ⟨rfl, -⟩ | ⟨rfl, -⟩ | ⟨rfl, -⟩ | ⟨rfl, -⟩ | ⟨rfl, -⟩ | ⟨rfl, -⟩ <;> simp

theorem lineToken_mem {token : Text} {make : Text → LogFilter} (h : (token, make) ∈ lineTokens) :
    token ∈ marks := by
  simp only [lineTokens, mem_cons, Prod.mk.injEq, not_mem_nil, or_false] at h
  rcases h with ⟨rfl, -⟩ | ⟨rfl, -⟩ | ⟨rfl, -⟩ | ⟨rfl, -⟩ | ⟨rfl, -⟩ | ⟨rfl, -⟩ <;> simp [marks]

theorem takes_lines {lines front : List LogFilter} (h : LineTokens lines ts) (hrest : NoLine rest) :
    @Takes source _ (loop lineRound front) ts (front ++ lines) rest := by
  induction h generalizing front with
  | nil =>
    refine Takes.loop_stop fun s hs => ?_
    refine ⟨skip s, hs.skip, (reads_consumeFirst_none (by simp [lineTokens]) fun kv hkv => ?_).bind ?_⟩
    · rcases line_begins hkv with hbar | hbang
      · exact isPrefixOf_eq_false hbar (hs.head_ne hrest.1)
      · exact isPrefixOf_eq_false hbang (hs.head_ne hrest.2)
    · rw [append_nil]
      exact Reads.pure _ _
  | @cons token value make lines ts hop _ ih =>
    have hround : @Takes source _ (lineRound front) [.mark token, .quoted value]
        (.inl (front ++ [make value])) (ts ++ rest) :=
      Takes.cons (takes_operator (by decide) (by decide) hop value [] (ts ++ rest))
        ((Takes.quotedString _ _).bind_last (Takes.pure _ _))
    have hfilters : @Takes source _ (loop lineRound (front ++ [make value])) ts
        (front ++ [make value] ++ lines) rest := ih
    rw [append_assoc, singleton_append] at hfilters
    exact Takes.loop_step progress_lineRound hround hfilters

theorem takes_parseLogRange {filter : LogFilter} (h : FilterTokens filter ts) (hbrace : NotNext '\x7b' rest)
    (hrest : NoLine rest) : @Takes source _ parseLogRange ts filter rest := by
  obtain ⟨hstream, hlines⟩ := h
  refine (takes_parseStream hstream ?_).bind ((takes_lines hlines hrest).bind_last (Takes.pure _ _))
  cases hlines with
  | nil => exact hbrace
  | cons hop _ =>
    refine .mark ?_ _
    rcases line_begins hop with hbar | hbang
    · simp [hbar]
    · simp [hbang]

theorem takes_parseOffset {offset : ℕ} (h : OffsetTokens offset ts) :
    @Takes source _ parseOffset ts offset (.mark ")".toList :: rest) := by
  cases h with
  | nowhere =>
    refine (Takes.consume_not 'o' rfl (.mark (by simp) _)).bind_none ?_
    exact Takes.pure _ _
  | behind =>
    refine Takes.cons (Takes.consume _ _) ?_
    refine Takes.durationNs _ ?_
    rintro _ ⟨⟩ ch ⟨⟩
    decide

theorem takes_parseRange {filter : LogFilter} {window offset : ℕ} (h : RangeTokens filter window offset ts) :
    @Takes source _ parseRange ts (filter, window, offset) rest := by
  obtain ⟨hfilter, hoffset⟩ := h
  refine Takes.cons (Takes.expect _ _) ?_
  refine (takes_parseLogRange hfilter (.mark (by simp) _) ⟨.mark (by simp) _, .mark (by simp) _⟩).bind ?_
  refine Takes.cons (Takes.expect _ _) (Takes.cons (Takes.durationNs _ ?_) ?_)
  · rintro _ ⟨⟩ ch ⟨⟩
    decide
  refine Takes.cons (Takes.expect _ _) ?_
  exact (takes_parseOffset hoffset).bind ((Takes.expect _ _).bind_last (Takes.pure _ _))

theorem find?_rangeOps {word : Text} {op : LogRangeOp} (h : (word, op) ∈ rangeOps) :
    word ≠ "sum".toList ∧ rangeOps.find? (fun op => op.1 = word) = some (word, op) := by
  simp only [rangeOps, mem_cons, Prod.mk.injEq, not_mem_nil, or_false] at h
  rcases h with ⟨rfl, rfl⟩ | ⟨rfl, rfl⟩
  · exact ⟨by simp, rfl⟩
  · exact ⟨by simp, rfl⟩

/-- A filter begins with a brace or an operator, a word with neither. -/
theorem filter_begins {filter : LogFilter} (h : FilterTokens filter ts) (hne : ts ≠ []) :
    ∃ m us, ts = .mark m :: us ∧ (m.head? = some '\x7b' ∨ m.head? = some '|' ∨ m.head? = some '!') := by
  obtain ⟨hstream, hlines⟩ := h
  cases hstream with
  | bare =>
    cases hlines with
    | nil => exact absurd rfl hne
    | cons hop _ => exact ⟨_, _, rfl, .inr (line_begins hop)⟩
  | braces _ => exact ⟨_, _, rfl, .inl rfl⟩

theorem word_begins {w s : Text} (h : Spelled (.word w :: ts) s) :
    ¬ ((skip s).head?.any fun ch => ch = '\x7b' || ch = '|' || ch = '!') = true := by
  obtain ⟨ch, t, hskip, hbegins⟩ := h.begins
  have hword : isWordChar ch = true := hbegins
  rw [hskip]
  simp only [head?_cons, Option.any_some, Bool.or_eq_true, decide_eq_true_eq, not_or]
  refine ⟨⟨?_, ?_⟩, ?_⟩ <;>
    · rintro rfl
      exact absurd hword (by decide)

/-- The parser reads every sequence of tokens of a query as the query. -/
theorem parseTranslated_takes {query : TranslatedQuery} (h : Written query ts) :
    @Takes source _ parseTranslated ts query [] := by
  cases h with
  | @selector filter ts h hne =>
    refine takes_peek (fun s hs => ?_) ?_
    · obtain ⟨m, us, rfl, hm⟩ := filter_begins h hne
      obtain ⟨ch, t, hskip, hbegins⟩ := hs.begins
      rw [show m.head? = some ch from hbegins] at hm
      rw [hskip]
      simpa [or_assoc] using hm
    · exact (takes_parseLogRange h (.nil _) ⟨.nil _, .nil _⟩).bind_last (Takes.pure _ _)
  | @range word op filter window offset ts hop h =>
    refine takes_peek_not (fun s hs => word_begins hs) ?_
    obtain ⟨hsum, hfind⟩ := find?_rangeOps hop
    refine Takes.bind_last (Takes.identifier fun range => ?_) (Takes.pure _ _)
    have hfunction : @Takes source _ (parseFunction word) [] (word, none) (ts ++ []) := by
      unfold parseFunction
      rw [if_neg hsum]
      exact Takes.pure _ _
    refine hfunction.bind_none ?_
    dsimp only
    rw [hfind]
    exact (takes_parseRange h).bind_last (Takes.pure _ _)
  | @sumBy word op labels filter window offset us ts hop hlabels h =>
    refine takes_peek_not (fun s hs => word_begins hs) ?_
    obtain ⟨hsum, hfind⟩ := find?_rangeOps hop
    refine Takes.bind_last (Takes.identifier fun range => ?_) (Takes.pure _ _)
    have hgrouping (rest : List Token) : @Takes source _ parseSumGrouping
        (.word "by".toList :: .mark "(".toList :: (us ++ [.mark ")".toList])) (.by labels) rest := by
      refine Takes.identifier fun range => ?_
      dsimp only
      rw [if_neg (not_not_intro rfl)]
      exact Takes.cons (Takes.expect _ _) ((takes_groupingLabels hlabels).bind_last (Takes.pure _ _))
    have hfunction (rest : List Token) : @Takes source _ (parseFunction "sum".toList)
        (.word "by".toList :: .mark "(".toList :: (us ++ [.mark ")".toList]) ++ [.mark "(".toList, .word word])
        (word, some (.by labels)) rest := by
      unfold parseFunction
      rw [if_pos rfl]
      exact (hgrouping _).bind (Takes.cons (Takes.expect _ _) (Takes.identifier fun range => Takes.pure _ _))
    have hshape : Token.word "by".toList :: .mark "(".toList ::
        (us ++ .mark ")".toList :: .mark "(".toList :: .word word :: (ts ++ [.mark ")".toList])) =
        (.word "by".toList :: .mark "(".toList :: (us ++ [.mark ")".toList]) ++ [.mark "(".toList, .word word]) ++
          (ts ++ [.mark ")".toList]) := by simp
    rw [hshape]
    refine (hfunction _).bind ?_
    dsimp only
    rw [hfind]
    exact (takes_parseRange h).bind ((Takes.expect _ _).bind_last (Takes.pure _ _))

/-! ## From queries to tokens -/

theorem parseStream_yields : @Yields source _ parseStream StreamTokens := by
  intro c labels c' h
  obtain ⟨u, c₁, hskip, h₁⟩ := run_bind_ok.mp h
  cases hskip
  obtain ⟨next, c₂, hnext, h₂⟩ := run_bind_ok.mp h₁
  cases hnext
  split at h₂
  · obtain ⟨u, c₃, hopen, h₃⟩ := run_bind_ok.mp h₂
    obtain ⟨_, rfl, s₁⟩ := yields_expect (by simp [marks]) _ _ _ hopen
    obtain ⟨_, ⟨us, hus, rfl⟩, s₂⟩ := yields_commaList (by simp [marks]) yields_matcher _ _ _ h₃
    refine ⟨_, .braces hus, fun rest hrest => Spelled.of_skip ?_⟩
    rw [← Cursor.skipWs_remaining]
    exact s₁ _ (s₂ rest hrest)
  · obtain ⟨rfl, rfl⟩ := run_pure_ok.mp h₂
    refine ⟨_, .bare, fun rest hrest => Spelled.of_skip ?_⟩
    rwa [Cursor.skipWs_remaining] at hrest

theorem lines_yields {lines front : List LogFilter} {rounds : ℕ} {c c' : Cursor source}
    (h : loopFrom lineRound rounds front c = .ok (lines, c')) :
    ∃ more ts, lines = front ++ more ∧ LineTokens more ts ∧
      ∀ rest, Spelled rest c'.remaining → Spelled (ts ++ rest) c.remaining := by
  induction rounds generalizing front c with
  | zero => cases h
  | succ rounds ih =>
    obtain ⟨state, c₁, hstate, hround⟩ := run_bind_ok.mp h
    obtain ⟨make, c₂, hmake, hrest⟩ := run_bind_ok.mp hstate
    cases make with
    | none =>
      obtain ⟨rfl, rfl⟩ := run_pure_ok.mp hrest
      obtain ⟨rfl, rfl⟩ := run_pure_ok.mp hround
      refine ⟨[], [], by simp, .nil, fun rest hrest => Spelled.of_skip ?_⟩
      rw [← consumeFirst_none hmake]
      exact hrest.skip
    | some make =>
      obtain ⟨value, c₃, hvalue, hresult⟩ := run_bind_ok.mp hrest
      obtain ⟨rfl, rfl⟩ := run_pure_ok.mp hresult
      obtain ⟨token, hmem, hskip⟩ := consumeFirst_eq hmake
      obtain ⟨_, rfl, s₁⟩ := yields_quotedString _ _ _ hvalue
      obtain ⟨more, ts, rfl, hmore, s₂⟩ := ih hround
      refine ⟨make value :: more, _, by simp, .cons hmem hmore, fun rest hrest => ?_⟩
      exact .behind hskip ⟨lineToken_mem hmem, rfl⟩ trivial (s₁ _ (s₂ rest hrest))

theorem parseLogRange_yields : @Yields source _ parseLogRange FilterTokens := by
  intro c filter c' h
  obtain ⟨labels, c₁, hlabels, h₁⟩ := run_bind_ok.mp h
  obtain ⟨filters, c₂, hlines, h₂⟩ := run_bind_ok.mp h₁
  obtain ⟨rfl, rfl⟩ := run_pure_ok.mp h₂
  obtain ⟨us, hus, s₁⟩ := parseStream_yields _ _ _ hlabels
  obtain ⟨lines, vs, rfl, hvs, s₂⟩ := lines_yields hlines
  refine ⟨_, .mk hus hvs, fun rest hrest => ?_⟩
  rw [append_assoc]
  exact s₁ _ (s₂ rest hrest)

theorem parseOffset_yields : @Yields source _ parseOffset OffsetTokens := by
  intro c offset c' h
  obtain ⟨found, c₁, hfound, h₁⟩ := run_bind_ok.mp h
  obtain ⟨_, rfl, s₁⟩ := yields_consume (by simp [marks]) _ _ _ hfound
  split at h₁
  · rename_i htrue
    obtain ⟨_, rfl, s₂⟩ := yields_durationNs _ _ _ h₁
    rw [if_pos htrue] at s₁
    exact ⟨_, .behind offset, fun rest hrest => s₁ _ (s₂ rest hrest)⟩
  · rename_i hfalse
    obtain ⟨rfl, rfl⟩ := run_pure_ok.mp h₁
    rw [if_neg hfalse] at s₁
    exact ⟨_, .nowhere, s₁⟩

theorem parseRange_yields : @Yields source _ parseRange fun range ts => RangeTokens range.1 range.2.1 range.2.2 ts := by
  intro c range c' h
  obtain ⟨u₁, c₁, hopen, h₁⟩ := run_bind_ok.mp h
  obtain ⟨filter, c₂, hfilter, h₂⟩ := run_bind_ok.mp h₁
  obtain ⟨u₂, c₃, hbracket, h₃⟩ := run_bind_ok.mp h₂
  obtain ⟨window, c₄, hwindow, h₄⟩ := run_bind_ok.mp h₃
  obtain ⟨u₃, c₅, hclose, h₅⟩ := run_bind_ok.mp h₄
  obtain ⟨offset, c₆, hoffset, h₆⟩ := run_bind_ok.mp h₅
  obtain ⟨u₄, c₇, hparen, h₇⟩ := run_bind_ok.mp h₆
  obtain ⟨rfl, rfl⟩ := run_pure_ok.mp h₇
  obtain ⟨_, rfl, s₁⟩ := yields_expect (by simp [marks]) _ _ _ hopen
  obtain ⟨us, hus, s₂⟩ := parseLogRange_yields _ _ _ hfilter
  obtain ⟨_, rfl, s₃⟩ := yields_expect (by simp [marks]) _ _ _ hbracket
  obtain ⟨_, rfl, s₄⟩ := yields_durationNs _ _ _ hwindow
  obtain ⟨_, rfl, s₅⟩ := yields_expect (by simp [marks]) _ _ _ hclose
  obtain ⟨vs, hvs, s₆⟩ := parseOffset_yields _ _ _ hoffset
  obtain ⟨_, rfl, s₇⟩ := yields_expect (by simp [marks]) _ _ _ hparen
  refine ⟨_, .mk hus hvs, fun rest hrest => ?_⟩
  have hall := s₁ _ (s₂ _ (s₃ _ (s₄ _ (s₅ _ (s₆ _ (s₇ rest hrest))))))
  simpa using hall

theorem parseSumGrouping_yields : @Yields source _ parseSumGrouping fun grouping ts => ∃ labels us,
    grouping = .by labels ∧ ListTokens WordTokens labels us ∧
      ts = .word "by".toList :: .mark "(".toList :: (us ++ [.mark ")".toList]) := by
  intro c grouping c' h
  obtain ⟨⟨keyword, range⟩, c₁, hkeyword, h₁⟩ := run_bind_ok.mp h
  obtain ⟨_, ⟨-, rfl⟩, s₁⟩ := yields_identifier _ _ _ hkeyword
  dsimp only at h₁ s₁
  split at h₁
  · cases h₁
  · rename_i hby
    obtain rfl := not_not.mp hby
    obtain ⟨_, ⟨labels, us, hus, rfl, rfl⟩, s₂⟩ := yields_labels _ _ _ _ h₁
    exact ⟨_, ⟨labels, us, rfl, hus, rfl⟩, fun rest hrest => s₁ _ (s₂ rest hrest)⟩

/-- The word of a range aggregation, with the sum around it if there is one. -/
theorem parseFunction_yields (word : Text) : @Yields source _ (parseFunction word) fun function ts =>
    function = (word, none) ∧ ts = [] ∨ word = "sum".toList ∧ ∃ labels us, function.2 = some (.by labels) ∧
      ListTokens WordTokens labels us ∧
        ts = .word "by".toList :: .mark "(".toList ::
          (us ++ [.mark ")".toList, .mark "(".toList, .word function.1]) := by
  intro c function c' h
  unfold parseFunction at h
  split at h
  · rename_i hsum
    obtain ⟨grouping, c₁, hgrouping, h₁⟩ := run_bind_ok.mp h
    obtain ⟨u, c₂, hopen, h₂⟩ := run_bind_ok.mp h₁
    obtain ⟨⟨name, range⟩, c₃, hname, h₃⟩ := run_bind_ok.mp h₂
    obtain ⟨rfl, rfl⟩ := run_pure_ok.mp h₃
    obtain ⟨_, ⟨labels, us, rfl, hus, rfl⟩, s₁⟩ := parseSumGrouping_yields _ _ _ hgrouping
    obtain ⟨_, rfl, s₂⟩ := yields_expect (by simp [marks]) _ _ _ hopen
    obtain ⟨_, ⟨-, rfl⟩, s₃⟩ := yields_identifier _ _ _ hname
    refine ⟨_, .inr ⟨hsum, labels, us, rfl, hus, rfl⟩, fun rest hrest => ?_⟩
    have hall := s₁ _ (s₂ _ (s₃ rest hrest))
    simpa using hall
  · obtain ⟨rfl, rfl⟩ := run_pure_ok.mp h
    exact ⟨[], .inl ⟨rfl, rfl⟩, fun _ hrest => hrest⟩

theorem parseExpression_yields :
    @Yields source _ parseExpression fun expression ts => Written (.log expression) ts := by
  intro c expression c' h
  obtain ⟨⟨word, range⟩, c₁, hword, h₁⟩ := run_bind_ok.mp h
  obtain ⟨_, ⟨-, rfl⟩, s₁⟩ := yields_identifier _ _ _ hword
  obtain ⟨⟨function, grouping⟩, c₂, hfunction, h₂⟩ := run_bind_ok.mp h₁
  obtain ⟨us, hus, s₂⟩ := parseFunction_yields word _ _ _ hfunction
  dsimp only at h₂ s₁
  rcases hfind : rangeOps.find? (fun op => op.1 = function) with _ | ⟨name, op⟩
  · rw [hfind] at h₂
    cases h₂
  rw [hfind] at h₂
  have hop := mem_of_find?_eq_some hfind
  obtain rfl : name = function := by simpa using find?_some hfind
  obtain ⟨⟨filter, window, offset⟩, c₃, hrange, h₃⟩ := run_bind_ok.mp h₂
  obtain ⟨ts, hts, s₃⟩ := parseRange_yields _ _ _ hrange
  rcases hus with ⟨heq, rfl⟩ | ⟨rfl, labels, vs, hgrouping, hvs, rfl⟩
  · cases heq
    obtain ⟨rfl, rfl⟩ := run_pure_ok.mp h₃
    exact ⟨_, .range hop hts, fun rest hrest => s₁ _ (s₂ _ (s₃ rest hrest))⟩
  · obtain rfl : grouping = some (.by labels) := hgrouping
    obtain ⟨u, c₄, hparen, h₄⟩ := run_bind_ok.mp h₃
    obtain ⟨rfl, rfl⟩ := run_pure_ok.mp h₄
    obtain ⟨_, rfl, s₄⟩ := yields_expect (by simp [marks]) _ _ _ hparen
    refine ⟨_, .sumBy hop hvs hts, fun rest hrest => ?_⟩
    have hall := s₁ _ (s₂ _ (s₃ _ (s₄ rest hrest)))
    simpa using hall

/-- What the parser reads up to the end of the source. -/
theorem parseTranslated_spelled {query : TranslatedQuery} {c c' : Cursor source}
    (h : parseTranslated c = .ok (query, c')) (hend : Spelled [] c'.remaining) :
    ∃ ts, Written query ts ∧ Spelled ts c.remaining := by
  obtain ⟨u, c₁, hskip, h₁⟩ := run_bind_ok.mp h
  cases hskip
  obtain ⟨next, c₂, hnext, h₂⟩ := run_bind_ok.mp h₁
  cases hnext
  split at h₂
  · rename_i hbegins
    obtain ⟨filter, c₃, hfilter, h₃⟩ := run_bind_ok.mp h₂
    obtain ⟨rfl, rfl⟩ := run_pure_ok.mp h₃
    obtain ⟨ts, hts, hspelled⟩ := parseLogRange_yields.spelled hfilter hend
    rw [Cursor.skipWs_remaining] at hspelled hbegins
    refine ⟨ts, .selector hts ?_, hspelled.of_skip⟩
    rintro rfl
    have hblank := hspelled.blank
    rw [skip_skip] at hblank
    simp [hblank] at hbegins
  · obtain ⟨expression, c₃, hexpression, h₃⟩ := run_bind_ok.mp h₂
    obtain ⟨rfl, rfl⟩ := run_pure_ok.mp h₃
    obtain ⟨ts, hts, hspelled⟩ := parseExpression_yields.spelled hexpression hend
    rw [Cursor.skipWs_remaining] at hspelled
    exact ⟨ts, hts, hspelled.of_skip⟩

/-! ## The translator -/

/-- The translator accepts the texts of queries, and gives the query. -/
theorem translateLogql_ok_iff {context : TranslateContext} {query : TranslatedQuery} :
    translateLogql source context = .ok query ↔ Renders query source :=
  translate_ok_iff (fun _ _ _ => parseTranslated_spelled) fun _ _ h => parseTranslated_takes h

end

end Imbh.Syntax.LogQl
