import Imbh.Syntax.Precedence

/-!
# Spanset queries

A query is a sequence of tokens and, if there is one, a pipeline `| count() op n`.

* `translate_iff` — the text of a query is translated exactly if its tokens are a sequence of the grammar
  with nothing behind the pipeline, and to the tree that the grammar assigns.
* `unions_not_printed` — of a chain of a hundred and twenty-eight operators, the text with full
  parentheses is not translated.
-/

namespace Imbh.Syntax.TraceQl

open Lib Lgtm Syntax

/-! ## Pipelines -/

/-- A pipeline `| count() op n`, with any whitespace between its tokens. -/
structure Pipeline where
  op : TraceCompareOp
  op_order : op ≠ .regex ∧ op ≠ .notRegex
  digits : Text
  digits_digit : ∀ ch ∈ digits, ch.isDigit = true
  value : UInt64
  digits_value : parseU64 digits = some value
  blanks : Fin 6 → Text
  blanks_space : ∀ i, ∀ ch ∈ blanks i, isWhitespace ch = true

namespace Pipeline

def text (p : Pipeline) : Text :=
  p.blanks 0 ++ '|' :: p.blanks 1 ++ "count".toList ++ p.blanks 2 ++ '(' :: p.blanks 3 ++ ')' :: p.blanks 4 ++
    opText p.op ++ p.blanks 5 ++ p.digits

end Pipeline

/-- What stands behind the tokens: whitespace, or a pipeline and anything behind it. -/
inductive Ending
  | blank (s : Text) (h : ∀ ch ∈ s, isWhitespace ch = true)
  | pipeline (p : Pipeline) (more : Text) (h : Ends Char.isDigit more)

namespace Ending

def text : Ending → Text
  | blank s _ => s
  | pipeline p more _ => p.text ++ more

/-- The tree of the query, if nothing stands behind the pipeline. -/
def apply (e : SpansetExpr) : Ending → Option SpansetExpr
  | blank _ _ => some e
  | pipeline p more _ => if skip more = [] then some (.count e p.op p.value.toNat) else none

end Ending

section

variable {source s t rest : Text}

namespace Pipeline

/-- The text behind the operator, and so on to that behind the bar. -/
def afterOp (p : Pipeline) (more : Text) : Text := p.blanks 5 ++ (p.digits ++ more)

def afterParens (p : Pipeline) (more : Text) : Text := p.blanks 4 ++ (opText p.op ++ p.afterOp more)

def afterCount (p : Pipeline) (more : Text) : Text :=
  p.blanks 2 ++ ('(' :: (p.blanks 3 ++ (')' :: p.afterParens more)))

def afterBar (p : Pipeline) (more : Text) : Text := p.blanks 1 ++ ("count".toList ++ p.afterCount more)

theorem text_append (p : Pipeline) (more : Text) : p.text ++ more = p.blanks 0 ++ ('|' :: p.afterBar more) := by
  simp [text, afterBar, afterCount, afterParens, afterOp]

theorem digits_cons (p : Pipeline) : ∃ ch s, p.digits = ch :: s ∧ ch.isDigit = true := by
  rcases h : p.digits with _ | ⟨ch, s⟩
  · have hvalue := p.digits_value
    rw [h] at hvalue
    cases hvalue
  · exact ⟨ch, s, rfl, p.digits_digit ch (by simp [h])⟩

theorem reads_parsePipeline (p : Pipeline) {more : Text} (hmore : Ends Char.isDigit more) (e : SpansetExpr)
    (hs : skip s = '|' :: p.afterBar more) :
    @Reads source _ (parsePipeline e) s (.count e p.op p.value.toNat) more := by
  obtain ⟨d, digits, hdigits, hd⟩ := p.digits_cons
  obtain ⟨x, oprest, hopText, hopWord, hopSpace⟩ := opText_cons p.op
  have hcount : skip (p.afterBar more) = "count".toList ++ p.afterCount more := by
    rw [afterBar, skip_append (p.blanks_space 1)]
    exact skip_cons (by decide)
  have hcountEnd : Ends isWordChar (p.afterCount more) :=
    Ends.append_blank (fun _ => isWordChar_ascii) (p.blanks_space 2) (Ends.cons (by decide) _)
  have hopen : skip (p.afterCount more) = "(".toList ++ (p.blanks 3 ++ (')' :: p.afterParens more)) := by
    rw [afterCount, skip_append (p.blanks_space 2)]
    exact skip_cons (by decide)
  have hclose : skip (p.blanks 3 ++ (')' :: p.afterParens more)) = ")".toList ++ p.afterParens more := by
    rw [skip_append (p.blanks_space 3)]
    exact skip_cons (by decide)
  have hop : skip (p.afterParens more) = opText p.op ++ p.afterOp more := by
    rw [afterParens, skip_append (p.blanks_space 4), hopText]
    exact skip_cons hopSpace
  have hopEnd : Ends isOpChar (p.afterOp more) := by
    refine Ends.append_blank (fun _ => isOpChar_ascii) (p.blanks_space 5) ?_
    rw [hdigits]
    refine Ends.cons ?_ _
    by_contra h
    simp only [isOpChar, Bool.not_eq_false, Bool.or_eq_true, decide_eq_true_eq] at h
    rcases h with rfl | rfl <;> exact absurd hd (by decide)
  have hvalue : skip (p.afterOp more) = p.digits ++ more := by
    rw [afterOp, skip_append (p.blanks_space 5), hdigits]
    exact skip_cons (not_isWhitespace_of_ascii (isDigit_ascii hd))
  have hunsigned : @Reads source _ unsigned (p.afterOp more) p.value.toNat more :=
    reads_number hvalue p.digits_digit hmore (by rw [p.digits_value]; rfl)
  have hregex : ¬ (p.op = .regex ∨ p.op = .notRegex) := by
    rw [not_or]
    exact p.op_order
  unfold parsePipeline
  refine reads_if hs ?_
  refine (reads_identifier hcount (by simp) (by simp [isWordChar]) hcountEnd).bind ?_
  dsimp only
  rw [if_neg (by simp)]
  refine (reads_expect hopen).bind ((reads_expect hclose).bind ((reads_compareOperator hop hopEnd).bind ?_))
  rw [if_neg hregex]
  exact hunsigned.bind (Reads.pure _ _)

end Pipeline

/-! ## Queries -/

theorem Ending.tail (ending : Ending) : Tail ending.text := by
  cases ending with
  | blank s h =>
    refine .inl ?_
    rw [Ending.text, ← List.append_nil s, skip_append h, skip_nil]
  | pipeline p more h =>
    refine .inr ⟨p.afterBar more, ?_, ?_⟩
    · rw [Ending.text, p.text_append, skip_append (p.blanks_space 0)]
      exact skip_cons (by decide)
    · refine Ends.append_blank ?_ (p.blanks_space 1) (Ends.cons (by decide) _)
      intro ch hch
      rw [decide_eq_true_eq] at hch
      subst hch
      decide

/-- Behind the tokens the query ends. -/
theorem Ending.reads (ending : Ending) {e e' : SpansetExpr} (hs : skip s = skip ending.text)
    (h : ending.apply e = some e') :
    @Reads source _ (do let e ← parsePipeline e; finish; return e) s e' [] := by
  cases ending with
  | blank r hr =>
    have hnil : skip s = [] := by rw [hs, Ending.text, ← List.append_nil r, skip_append hr, skip_nil]
    cases h
    refine Reads.bind (reads_else (by rw [hnil]; rfl) (Reads.pure e _)) ?_
    exact (reads_finish (by rwa [skip_skip])).bind (Reads.pure e [])
  | pipeline p more hmore =>
    have hbar : skip s = '|' :: p.afterBar more := by
      rw [hs, Ending.text, p.text_append, skip_append (p.blanks_space 0)]
      exact skip_cons (by decide)
    rw [Ending.apply] at h
    split at h
    · rename_i hnil
      cases h
      exact (p.reads_parsePipeline hmore e hbar).bind ((reads_finish hnil).bind (Reads.pure _ _))
    · cases h

theorem Ending.rejects (ending : Ending) {e : SpansetExpr} (hs : skip s = skip ending.text)
    (h : ending.apply e = none) :
    @Rejects source _ (do let e ← parsePipeline e; finish; return e) s := by
  cases ending with
  | blank r hr => cases h
  | pipeline p more hmore =>
    have hbar : skip s = '|' :: p.afterBar more := by
      rw [hs, Ending.text, p.text_append, skip_append (p.blanks_space 0)]
      exact skip_cons (by decide)
    rw [Ending.apply] at h
    split at h
    · cases h
    · rename_i hmore'
      exact (p.reads_parsePipeline hmore e hbar).bind_rejects (Rejects.bind (rejects_finish hmore'))

/-- A token that is left over is no pipeline and not the end. -/
theorem Token.rejects (t : Token) {e : SpansetExpr} (hs : skip s = t.text ++ rest) :
    @Rejects source _ (do let e ← parsePipeline e; finish; return e) s := by
  obtain ⟨ch, k, htext, hch⟩ := t.text_cons
  have hother : "|".toList.isPrefixOf (skip s) = false →
      @Rejects source _ (do let e ← parsePipeline e; finish; return e) s := by
    intro hbar
    refine Reads.bind_rejects (reads_else hbar (Reads.pure e _)) (Rejects.bind (rejects_finish ?_))
    rw [skip_skip, hs, htext]
    simp
  cases t with
  | or =>
    have hword : @Rejects source _ identifier ('|' :: rest) := by
      apply rejects_identifier
      rw [skip_cons (by decide)]
      exact Ends.cons (by decide) _
    exact Rejects.bind ((reads_consume (t := '|' :: rest) hs).bind_rejects (Rejects.bind hword))
  | structural r h =>
    apply hother
    rw [hs]
    exact structural_isPrefixOf h (by decide) _ _
  | _ =>
    apply hother
    rw [hs]
    rfl

/-- The tree that the grammar assigns to a query. -/
def assigned (ts : List Token) (ending : Ending) : Option SpansetExpr :=
  match grammar.parse 128 ts with
  | some (e, []) => ending.apply e
  | _ => none

theorem parseQuery_written {ts : List Token} {ending : Ending} (h : Written ending.text ts s) :
    match assigned ts ending with
    | some e => @Reads source _ parseQuery s e []
    | none => @Rejects source _ parseQuery s := by
  have hspanset := @simulates_spanset source _ ending.tail 128 ts s h.shows
  unfold assigned
  rcases hparse : grammar.parse 128 ts with _ | ⟨e, _ | ⟨t, rest⟩⟩ <;> rw [hparse] at hspanset
  · exact Rejects.bind hspanset
  · obtain ⟨u, hu, hshows⟩ := hspanset
    dsimp only
    rcases happly : ending.apply e with _ | e'
    · refine hu.bind_rejects ?_
      exact ending.rejects hshows.nil happly
    · refine hu.bind ?_
      exact ending.reads hshows.nil happly
  · obtain ⟨u, hu, hshows⟩ := hspanset
    obtain ⟨rest', hskip, -, -⟩ := hshows.cons
    refine hu.bind_rejects ?_
    exact t.rejects hskip

theorem assigned_eq_some {ts : List Token} {ending : Ending} {e' : SpansetExpr} :
    assigned ts ending = some e' ↔
      ∃ e, grammar.Derives 127 grammar.levels ts e ∧ ending.apply e = some e' := by
  unfold assigned
  constructor
  · intro h
    split at h
    · rename_i e hparse
      exact ⟨e, Precedence.parse_eq_some_iff.mp hparse, h⟩
    · cases h
  · rintro ⟨e, hderives, happly⟩
    rw [Precedence.parse_eq_some_iff.mpr hderives]
    exact happly

/-- The translation of the text of a query. -/
theorem translate_written {ts : List Token} {ending : Ending} (h : Written ending.text ts source)
    (context : TranslateContext) {q : TranslatedQuery} :
    translateTraceql source context = .ok q ↔ ∃ e, assigned ts ending = some e ∧ q = .trace e := by
  have hquery := @parseQuery_written source source ts ending h
  unfold translateTraceql
  rw [translate_map]
  rcases hassigned : assigned ts ending with _ | e <;> rw [hassigned] at hquery
  · obtain ⟨d, hd⟩ := hquery (Cursor.new source) rfl
    simp [translate, hd, Except.map]
  · obtain ⟨c, hc, -⟩ := hquery (Cursor.new source) rfl
    simp [translate, hc, Except.map, eq_comm]

end

/-- The text of a query is translated to the tree of its tokens, if these are a sequence of the grammar with
parentheses at most a hundred and twenty-seven deep and nothing stands behind a pipeline. The text of a tree
with full parentheses is translated to that tree, if these nest no deeper. -/
theorem translate_iff (context : TranslateContext) :
    (∀ (ts : List Token) (ending : Ending) (source : Text) (q : TranslatedQuery),
      Written ending.text ts source →
        (translateTraceql source context = .ok q ↔
          ∃ e e', grammar.Derives 127 grammar.levels ts e ∧ ending.apply e = some e' ∧ q = .trace e')) ∧
      ∀ (tree : grammar.Tree) (ending : Ending) (source : Text) (q : TranslatedQuery),
        Written ending.text (tree.print .lparen .rparen) source →
          (translateTraceql source context = .ok q ↔
            tree.height ≤ 127 ∧ ∃ e', ending.apply tree.value = some e' ∧ q = .trace e') := by
  have hgrammar : ∀ (ts : List Token) (ending : Ending) (source : Text) (q : TranslatedQuery),
      Written ending.text ts source →
        (translateTraceql source context = .ok q ↔
          ∃ e e', grammar.Derives 127 grammar.levels ts e ∧ ending.apply e = some e' ∧ q = .trace e') := by
    intro ts ending source q h
    rw [translate_written h]
    constructor
    · rintro ⟨e', hassigned, rfl⟩
      obtain ⟨e, hderives, happly⟩ := assigned_eq_some.mp hassigned
      exact ⟨e, e', hderives, happly, rfl⟩
    · rintro ⟨e, e', hderives, happly, rfl⟩
      exact ⟨e', assigned_eq_some.mpr ⟨e, hderives, happly⟩, rfl⟩
  refine ⟨hgrammar, fun tree ending source q h => ?_⟩
  rw [hgrammar _ ending source q h]
  constructor
  · rintro ⟨e, e', hderives, happly, hq⟩
    obtain ⟨rfl, hheight⟩ := (tree.derives_print_iff grammar_opens grammar_closes).mp hderives
    exact ⟨hheight, e', happly, hq⟩
  · rintro ⟨hheight, e', happly, hq⟩
    exact ⟨_, e', (tree.derives_print_iff grammar_opens grammar_closes).mpr ⟨rfl, hheight⟩, happly, hq⟩

/-! ## Texts of tokens -/

/-- The texts of some tokens, with a blank before each. -/
def spaced (ts : List Token) : Text := ts.flatMap fun t => ' ' :: t.text

theorem structural_chars : ∀ r ∈ structuralTokens, ∀ ch ∈ r.1, ch ∈ ['&', '!', '>', '<', '~'] := by
  simp [structuralTokens]

/-- Before another character an operator is the longest. -/
theorem Token.longest {t : Token} {s : Text} (h : ∀ ch ∈ s.head?, ch ∉ ['&', '!', '>', '<', '~']) :
    t.Longest s := by
  cases t with
  | structural r hr =>
    intro a ha hprefix
    by_contra hlt
    obtain ⟨k, hk⟩ := List.prefix_of_prefix_length_le (List.prefix_append r.1 s) hprefix (by omega)
    rw [← hk, List.prefix_append_right_inj] at hprefix
    rcases k with _ | ⟨ch, k⟩
    · rw [← hk, List.append_nil] at hlt
      exact hlt le_rfl
    · obtain ⟨rest, rfl⟩ := hprefix
      refine h ch rfl (structural_chars a ha ch ?_)
      rw [← hk]
      simp
  | _ => trivial

theorem written_spaced (ts : List Token) : Written [] ts (spaced ts) := by
  induction ts with
  | nil => exact .nil
  | cons t ts ih =>
    refine @Written.cons [] t ts [' '] _ (by simp [isWhitespace]) (Token.longest ?_) ih
    cases ts with
    | nil => exact fun _ h => nomatch h
    | cons t ts =>
      rintro _ ⟨⟩
      decide

/-! ## A long chain -/

/-- The selector `{}`. -/
def anySpan : Selector where
  body := "\x7d".toList
  predicate := .all
  reads source rest := by
    refine (reads_expect (t := "\x7d".toList ++ rest) (skip_cons (by decide))).bind ?_
    exact reads_if (skip_cons (by decide)) (Reads.pure _ _)

/-- So many unions of all spans, from the left. -/
def unions : ℕ → grammar.Tree
  | 0 => .atom (.selector anySpan) (.select .all) rfl
  | n + 1 =>
      .node Token.orOperator List.mem_cons_self .or .or rfl (unions n) (.atom (.selector anySpan) (.select .all) rfl)

/-- The tokens of the unions without parentheses. -/
def unionTokens : ℕ → List Token
  | 0 => [.selector anySpan]
  | n + 1 => unionTokens n ++ [.or, .selector anySpan]

theorem unions_height (n : ℕ) : (unions n).height = n := by
  induction n with
  | zero => rfl
  | succ n ih => simp [unions, Precedence.Tree.height, ih]

theorem derives_unionTokens (room n : ℕ) : grammar.Derives room grammar.levels (unionTokens n) (unions n).value := by
  have hatom : ∀ levels, grammar.Derives room levels [.selector anySpan] (.select .all) := fun levels =>
    (Precedence.Derives.atom rfl).lift List.nil_suffix
  induction n with
  | zero => exact hatom _
  | succ n ih => exact .binary ih rfl (hatom _)

/-- The text ` {} || {}`, and that with parentheses. -/
theorem translate_union :
    translateTraceql " \x7b\x7d || \x7b\x7d".toList ⟨[]⟩ = .ok (.trace (unions 1).value) ∧
      translateTraceql " ( \x7b\x7d || \x7b\x7d )".toList ⟨[]⟩ = .ok (.trace (unions 1).value) :=
  ⟨((translate_iff ⟨[]⟩).1 (unionTokens 1) (.blank [] (by simp)) _ _ (written_spaced _)).mpr
      ⟨_, _, derives_unionTokens 127 1, rfl, rfl⟩,
    ((translate_iff ⟨[]⟩).2 (unions 1) (.blank [] (by simp)) _ _ (written_spaced _)).mpr
      ⟨by rw [unions_height]; decide, _, rfl, rfl⟩⟩

/-- The unions of a hundred and twenty-eight operators are translated, and with full parentheses they are
not. -/
theorem unions_not_printed :
    translateTraceql (spaced (unionTokens 128)) ⟨[]⟩ = .ok (.trace (unions 128).value) ∧
      ∀ q, translateTraceql (spaced ((unions 128).print .lparen .rparen)) ⟨[]⟩ ≠ .ok q := by
  have hblank : ∀ ch ∈ ([] : Text), isWhitespace ch = true := by simp
  constructor
  · rw [@translate_written _ _ (.blank [] hblank) (written_spaced _)]
    exact ⟨_, assigned_eq_some.mpr ⟨_, derives_unionTokens 127 128, rfl⟩, rfl⟩
  · intro q hq
    rw [@translate_written _ _ (.blank [] hblank) (written_spaced _)] at hq
    obtain ⟨e, hassigned, -⟩ := hq
    obtain ⟨e', hderives, -⟩ := assigned_eq_some.mp hassigned
    have hheight := ((unions 128).derives_print_iff grammar_opens grammar_closes).mp hderives
    rw [unions_height] at hheight
    omega

end Imbh.Syntax.TraceQl
