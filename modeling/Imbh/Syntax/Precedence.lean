import Imbh.Lib.Precedence
import Imbh.Syntax.IntegerComparisons

/-!
# The precedence grammar of TraceQL

Spanset expressions as sequences of tokens: selectors, parentheses, `||`, `&&` and the structural
operators. The text of a sequence has any whitespace between its tokens, so long as each operator is the
longest that is there.
-/

namespace Imbh.Syntax.TraceQl

open Lib Lgtm Syntax List

/-! ## Tokens -/

/-- A text that is read as a selector, whatever follows it. -/
structure Selector where
  body : Text
  predicate : SpanPredicate
  reads : ∀ source rest : Text,
    @Reads source _ parseSelector ('\x7b' :: body ++ rest) (.select predicate) rest

inductive Token
  | selector (s : Selector)
  | lparen
  | rparen
  | or
  | and
  | structural (r : Text × StructuralOp × Bool) (h : r ∈ structuralTokens)

namespace Token

def text : Token → Text
  | .selector s => '\x7b' :: s.body
  | .lparen => "(".toList
  | .rparen => ")".toList
  | .or => "||".toList
  | .and => "&&".toList
  | .structural r _ => r.1

def orOperator : Operators Token SpansetExpr
  | .or => some .or
  | _ => none

def andOperator : Operators Token SpansetExpr
  | .and => some .and
  | _ => none

def structuralOperator : Operators Token SpansetExpr
  | .structural r _ => some fun left right => .structural left r.2.1 right r.2.2
  | _ => none

/-- No longer structural operator begins with the token. -/
def Longest : Token → Text → Prop
  | .structural r _, s => ∀ a ∈ structuralTokens, a.1 <+: r.1 ++ s → a.1.length ≤ r.1.length
  | _, _ => True

end Token

/-- The grammar: `||` lowest, then `&&`, then the structural operators. -/
def grammar : Precedence Token SpansetExpr where
  atom
    | .selector s => some (.select s.predicate)
    | _ => none
  opens
    | .lparen => true
    | _ => false
  closes
    | .rparen => true
    | _ => false
  levels := [Token.orOperator, Token.andOperator, Token.structuralOperator]
  opens_closes t h := by cases t <;> first | rfl | cases h
  bracket_atom t h := by
    cases t with
    | selector s => rcases h with h | h <;> cases h
    | _ => rfl
  bracket_operator t h o ho := by
    simp only [mem_cons, not_mem_nil, or_false] at ho
    cases t with
    | lparen => rcases ho with rfl | rfl | rfl <;> rfl
    | rparen => rcases ho with rfl | rfl | rfl <;> rfl
    | _ => rcases h with h | h <;> cases h
  level_unique := by
    simp only [pairwise_cons, forall_mem_cons]
    refine ⟨⟨fun t => ?_, fun t => ?_, by simp⟩, ⟨fun t => ?_, by simp⟩, by simp⟩ <;>
      cases t <;> simp [Token.orOperator, Token.andOperator, Token.structuralOperator]

@[simp] theorem grammar_opens : grammar.opens .lparen = true := rfl

@[simp] theorem grammar_closes : grammar.closes .rparen = true := rfl

/-- The text of some tokens before a tail. -/
inductive Written (tail : Text) : List Token → Text → Prop
  | nil : Written tail [] tail
  | cons {t : Token} {ts : List Token} {blank s : Text} (hblank : ∀ ch ∈ blank, isWhitespace ch = true)
      (hlongest : t.Longest s) (h : Written tail ts s) : Written tail (t :: ts) (blank ++ (t.text ++ s))

/-- What remains of the text, from which the parser may have read the whitespace. -/
def Shows (tail : Text) (ts : List Token) (s : Text) : Prop := ∃ s', Written tail ts s' ∧ skip s = skip s'

/-- No token comes next: the text is over, or there is a pipeline. -/
def Tail (tail : Text) : Prop := skip tail = [] ∨ ∃ s, skip tail = '|' :: s ∧ Ends (· = '|') s

/-! ## Prefixes -/

variable {r : Text × StructuralOp × Bool}

/-- The first characters of the structural operators. -/
theorem structural_head (h : r ∈ structuralTokens) : ∃ ch s, r.1 = ch :: s ∧ ch ∈ ['&', '!', '>', '<', '~'] := by
  revert r
  simp only [structuralTokens, forall_mem_cons]
  simp

theorem structural_not_and (h : r ∈ structuralTokens) (s : Text) : "&&".toList.isPrefixOf (r.1 ++ s) = false := by
  revert r
  simp only [structuralTokens, forall_mem_cons]
  simp [List.isPrefixOf]

theorem Token.text_cons (t : Token) : ∃ ch s, t.text = ch :: s ∧ isWhitespace ch = false := by
  cases t with
  | structural r h =>
    obtain ⟨ch, s, hr, hch⟩ := structural_head h
    refine ⟨ch, s, hr, ?_⟩
    simp only [mem_cons, not_mem_nil, or_false] at hch
    rcases hch with rfl | rfl | rfl | rfl | rfl <;> decide
  | selector s => exact ⟨_, _, rfl, by decide⟩
  | _ => exact ⟨_, _, rfl, by decide⟩

/-- A character that begins no structural operator. -/
theorem structural_isPrefixOf (h : r ∈ structuralTokens) {ch : Char} (hch : ch ∉ ['&', '!', '>', '<', '~'])
    (k s : Text) : (ch :: k).isPrefixOf (r.1 ++ s) = false := by
  obtain ⟨x, rest, hr, hx⟩ := structural_head h
  have hne : (ch == x) = false := by
    simp only [beq_eq_false_iff_ne]
    rintro rfl
    exact hch hx
  rw [hr]
  simp [List.isPrefixOf, hne]

theorem not_structural_isPrefixOf {ch : Char} (hch : ch ∉ ['&', '!', '>', '<', '~']) (s : Text) :
    ∀ r ∈ structuralTokens, r.1.isPrefixOf (ch :: s) = false := by
  intro r hr
  obtain ⟨x, rest, hrest, hx⟩ := structural_head hr
  have hne : (x == ch) = false := by
    simp only [beq_eq_false_iff_ne]
    rintro rfl
    exact hch hx
  rw [hrest]
  simp [List.isPrefixOf, hne]

/-- The operators, of which none begins a later one. -/
theorem structuralTokens_pairwise : structuralTokens.Pairwise fun a b => ¬ a.1 <+: b.1 := by decide

/-! ## What is shown -/

section

variable {tail s : Text} {t : Token} {ts : List Token}

theorem Shows.skip (h : Shows tail ts s) : Shows tail ts (skip s) := by
  obtain ⟨s', hwritten, hskip⟩ := h
  exact ⟨s', hwritten, by rw [skip_skip, hskip]⟩

theorem Written.shows (h : Written tail ts s) : Shows tail ts s := ⟨s, h, rfl⟩

theorem Shows.nil (h : Shows tail [] s) : Imbh.Syntax.skip s = Imbh.Syntax.skip tail := by
  obtain ⟨s', hwritten, hskip⟩ := h
  cases hwritten
  exact hskip

theorem Shows.cons (h : Shows tail (t :: ts) s) :
    ∃ rest, Imbh.Syntax.skip s = t.text ++ rest ∧ t.Longest rest ∧ Written tail ts rest := by
  obtain ⟨s', hwritten, hskip⟩ := h
  cases hwritten with
  | @cons _ _ blank rest hblank hlongest hwritten =>
    refine ⟨rest, ?_, hlongest, hwritten⟩
    obtain ⟨ch, k, htext, hch⟩ := t.text_cons
    rw [hskip, skip_append hblank, htext]
    exact skip_cons hch

/-- Each token has a character. -/
theorem Written.length_le (h : Written tail ts s) : ts.length ≤ s.length := by
  induction h with
  | nil => simp
  | @cons t ts blank s _ _ _ ih =>
    obtain ⟨ch, k, htext, -⟩ := t.text_cons
    simp [htext]
    omega

theorem length_skip_le (s : Text) : (skip s).length ≤ s.length := (dropWhile_suffix _).length_le

theorem Shows.length_le (h : Shows tail ts s) : ts.length ≤ s.length := by
  rcases ts with _ | ⟨t, ts⟩
  · simp
  · obtain ⟨rest, hskip, -, hwritten⟩ := h.cons
    obtain ⟨ch, k, htext, -⟩ := t.text_cons
    have hle := length_skip_le s
    have hrest := hwritten.length_le
    rw [hskip, htext] at hle
    simp only [length_cons, length_append] at hle ⊢
    omega

end

/-! ## The parser as the descent -/

section

variable {source tail : Text}

/-- On the text of some tokens, the parser does what the descent does on the tokens. -/
def Simulates (tail : Text) (p : Parse source SpansetExpr)
    (q : List Token → Option (SpansetExpr × List Token)) : Prop :=
  ∀ ts s, Shows tail ts s →
    match q ts with
    | some (e, rest) => ∃ u, Reads p s e u ∧ Shows tail rest u
    | none => Rejects p s

/-- On the text of some tokens, the parser of an operator reads the one that comes next. -/
def ReadsOperator (tail : Text) (p : Parse source (Option (SpansetExpr → SpansetExpr → SpansetExpr)))
    (o : Operators Token SpansetExpr) : Prop :=
  ∀ ts s, Shows tail ts s →
    (∃ t rest f u, ts = t :: rest ∧ o t = some f ∧ Reads p s (some f) u ∧ Shows tail rest u) ∨
      (∀ t ∈ ts.head?, o t = none) ∧ ∃ u, Reads p s none u ∧ Shows tail ts u

/-- The rounds of a level are those of the descent. -/
theorem simulates_rounds {po : Parse source (Option (SpansetExpr → SpansetExpr → SpansetExpr))}
    {o : Operators Token SpansetExpr} {p : Parse source SpansetExpr}
    {q : List Token → Option (SpansetExpr × List Token)} (ho : ReadsOperator tail po o)
    (hp : Simulates tail p q) (hq : ∀ ts e rest, q ts = some (e, rest) → rest.length ≤ ts.length)
    {n m : ℕ} {e : SpansetExpr} {ts : List Token} {s : Text} (hn : ts.length ≤ n) (hm : n < m)
    (hs : Shows tail ts s) :
    match Precedence.chainFrom o q n e ts with
    | some (e', rest) => ∃ u, Reads (loopFrom (chainRound po p) m e) s e' u ∧ Shows tail rest u
    | none => Rejects (loopFrom (chainRound po p) m e) s := by
  induction n generalizing m e ts s with
  | zero =>
    obtain ⟨m, rfl⟩ := Nat.exists_eq_succ_of_ne_zero (Nat.ne_of_gt hm)
    rcases ho ts s hs with ⟨t, rest, f, u, rfl, -⟩ | ⟨-, u, hread, hshows⟩
    · exact absurd hn (by simp)
    · exact ⟨u, reads_loopFrom_stop m (hread.bind (Reads.pure _ _)), hshows⟩
  | succ n ih =>
    obtain ⟨m, rfl⟩ := Nat.exists_eq_succ_of_ne_zero (Nat.ne_of_gt (Nat.zero_lt_of_lt hm))
    rcases ho ts s hs with ⟨t, rest, f, u, rfl, hf, hread, hshows⟩ | ⟨hquiet, u, hread, hshows⟩
    · have hoperand := hp rest u hshows
      rw [Precedence.chainFrom, hf]
      rcases hb : q rest with _ | ⟨b, rest'⟩ <;> rw [hb] at hoperand
      · exact Rejects.bind (hread.bind_rejects (Rejects.bind hoperand))
      · obtain ⟨v, hv, hrest⟩ := hoperand
        have hle := hq _ _ _ hb
        have hcombined : Reads (p >>= fun b => return Sum.inl (f e b)) u
            (Sum.inl (f e b) : SpansetExpr ⊕ SpansetExpr) v := hv.bind (Reads.pure _ _)
        have hround : Reads (chainRound po p e) s (.inl (f e b)) v := hread.bind hcombined
        rw [length_cons] at hn
        have hrounds := ih (e := f e b) (m := m) (by omega) (by omega) hrest
        dsimp only [bind, Option.bind]
        rcases hchain : Precedence.chainFrom o q n (f e b) rest' with _ | ⟨e', rest''⟩ <;>
          rw [hchain] at hrounds
        · exact hround.bind_rejects hrounds
        · obtain ⟨w, hw, hshows⟩ := hrounds
          exact ⟨w, reads_loopFrom_step hround hw, hshows⟩
    · rw [Precedence.chainFrom_quiet hquiet]
      exact ⟨u, reads_loopFrom_stop m (hread.bind (Reads.pure _ _)), hshows⟩

theorem simulates_chain {po : Parse source (Option (SpansetExpr → SpansetExpr → SpansetExpr))}
    {o : Operators Token SpansetExpr} {p : Parse source SpansetExpr}
    {levels : List (Operators Token SpansetExpr)} {operand : List Token → Option (SpansetExpr × List Token)}
    (ho : ReadsOperator tail po o)
    (hp : Simulates tail p (Precedence.parseLevels operand levels))
    (hq : ∀ ts e rest, Precedence.parseLevels operand levels ts = some (e, rest) → rest.length ≤ ts.length) :
    Simulates tail (chain po p) (Precedence.parseLevels operand (o :: levels)) := by
  intro ts s hs
  have hfirst := hp ts s hs
  rw [Precedence.parseLevels]
  rcases he : Precedence.parseLevels operand levels ts with _ | ⟨e, rest⟩ <;> rw [he] at hfirst
  · exact Rejects.bind hfirst
  · obtain ⟨u, hu, hshows⟩ := hfirst
    have hrounds := simulates_rounds ho hp hq (e := e) le_rfl (Nat.lt_succ_of_le hshows.length_le) hshows
    dsimp only [bind, Option.bind]
    rcases hchain : Precedence.chainFrom o (Precedence.parseLevels operand levels) rest.length e rest
      with _ | ⟨e', rest'⟩ <;> rw [hchain] at hrounds
    · exact hu.bind_rejects (rejects_loop hrounds)
    · obtain ⟨v, hv, hshows⟩ := hrounds
      exact ⟨v, hu.bind (reads_loop hv), hshows⟩

/-! ### Operators -/

variable {tail : Text} {ts : List Token} {s : Text}

/-- Before a tail comes the bar of a pipeline, or nothing. -/
theorem Tail.isPrefixOf (htail : Tail tail) {ch : Char} {k : Text} (h : ch = '|' → ∃ k', k = '|' :: k') :
    (ch :: k).isPrefixOf (skip tail) = false := by
  rcases htail with hnil | ⟨s, hbar, hend⟩
  · rw [hnil]
    rfl
  · rw [hbar]
    by_cases hch : ch = '|'
    · obtain ⟨k, rfl⟩ := h hch
      rcases s with _ | ⟨x, s⟩
      · simp [List.isPrefixOf]
      · have hx : x ≠ '|' := by simpa using hend x rfl
        simp [List.isPrefixOf, hx.symm]
    · simp [List.isPrefixOf, hch]

theorem Tail.not_isPrefixOf (htail : Tail tail) {ch : Char} (h : ch ≠ '|') (k : Text) :
    (ch :: k).isPrefixOf (skip tail) = false := htail.isPrefixOf fun heq => absurd heq h

/-- A literal token: what it stands for comes next, or it does not. -/
theorem readsOperator_literal {token : Text} {f : SpansetExpr → SpansetExpr → SpansetExpr}
    {o : Operators Token SpansetExpr}
    (htail : token.isPrefixOf (skip tail) = false)
    (hsome : ∀ t, o t ≠ none → t.text = token ∧ o t = some f)
    (hnone : ∀ t, o t = none → ∀ rest, token.isPrefixOf (t.text ++ rest) = false) :
    @ReadsOperator source tail
      (do if ← consume token then return some f else return none) o := by
  intro ts s hs
  rcases ts with _ | ⟨t, ts⟩
  · refine .inr ⟨by simp, skip s, reads_else ?_ (Reads.pure _ _), hs.skip⟩
    rw [hs.nil]
    exact htail
  · obtain ⟨rest, hskip, -, hwritten⟩ := hs.cons
    by_cases ho : o t = none
    · refine .inr ⟨by simpa using ho, skip s, reads_else ?_ (Reads.pure _ _), hs.skip⟩
      rw [hskip]
      exact hnone t ho rest
    · obtain ⟨htext, hf⟩ := hsome t ho
      exact .inl ⟨t, ts, f, rest, rfl, hf, reads_if (htext ▸ hskip) (Reads.pure _ _), hwritten.shows⟩

theorem readsOperator_or (htail : Tail tail) :
    @ReadsOperator source tail
      (do if ← consume "||".toList then return some SpansetExpr.or else return none) Token.orOperator := by
  apply readsOperator_literal
  · exact htail.isPrefixOf fun _ => ⟨[], rfl⟩
  · intro t ht
    cases t with
    | or => exact ⟨rfl, rfl⟩
    | _ => exact absurd rfl ht
  · intro t ht rest
    cases t with
    | or => cases ht
    | structural r h => exact structural_isPrefixOf h (by decide) _ _
    | _ => rfl

theorem readsOperator_and (htail : Tail tail) :
    @ReadsOperator source tail
      (do if ← consume "&&".toList then return some SpansetExpr.and else return none) Token.andOperator := by
  apply readsOperator_literal
  · exact htail.not_isPrefixOf (by decide) ['&']
  · intro t ht
    cases t with
    | and => exact ⟨rfl, rfl⟩
    | _ => exact absurd rfl ht
  · intro t ht rest
    cases t with
    | and => cases ht
    | structural r h => exact structural_not_and h rest
    | _ => rfl

theorem readsOperator_structural (htail : Tail tail) :
    @ReadsOperator source tail parseStructuralOperator Token.structuralOperator := by
  have hnothing : ∀ s, (∀ r ∈ structuralTokens, r.1.isPrefixOf (skip s) = false) →
      @Reads source _ parseStructuralOperator s none (skip s) := fun s h =>
    (reads_consumeFirst_none (by simp [structuralTokens]) h).bind (Reads.pure _ _)
  intro ts s hs
  rcases ts with _ | ⟨t, ts⟩
  · refine .inr ⟨by simp, skip s, hnothing s ?_, hs.skip⟩
    rw [hs.nil]
    rcases htail with hnil | ⟨s', hbar, -⟩
    · rw [hnil]
      intro r hr
      obtain ⟨ch, k, hrest, -⟩ := structural_head hr
      rw [hrest]
      rfl
    · rw [hbar]
      exact not_structural_isPrefixOf (by decide) _
  · obtain ⟨rest, hskip, hlongest, hwritten⟩ := hs.cons
    cases t with
    | structural r h =>
      have hfind : (structuralTokens.find? fun a => a.1.isPrefixOf (skip s)) = some r := by
        rw [hskip]
        exact find?_longest structuralTokens_pairwise h hlongest
      refine .inl ⟨_, ts, _, rest, rfl, rfl, ?_, hwritten.shows⟩
      exact (reads_consumeFirst hfind hskip).bind (Reads.pure _ _)
    | and =>
      refine .inr ⟨by simp [Token.structuralOperator], skip s, hnothing s ?_, hs.skip⟩
      rw [hskip]
      simp [structuralTokens, Token.text, List.isPrefixOf]
    | _ =>
      refine .inr ⟨by simp [Token.structuralOperator], skip s, hnothing s ?_, hs.skip⟩
      rw [hskip]
      exact not_structural_isPrefixOf (by decide) _

/-! ### Parentheses -/

theorem rejects_selector (h : "\x7b".toList.isPrefixOf (skip s) = false) :
    @Rejects source _ parseSelector s := Rejects.bind (rejects_expect h)

/-- An operand is a selector or an expression in parentheses. -/
theorem simulates_primary (htail : Tail tail) {p : Parse source SpansetExpr}
    {inner : List Token → Option (SpansetExpr × List Token)} (hp : Simulates tail p inner) :
    Simulates tail (parsePrimary p) (grammar.parseOperand inner) := by
  have helse : ∀ {s}, "(".toList.isPrefixOf (skip s) = false →
      "\x7b".toList.isPrefixOf (skip s) = false → @Rejects source _ (parsePrimary p) s :=
    fun hparen hbrace => (reads_consume_not hparen).bind_rejects (rejects_selector (by rwa [skip_skip]))
  intro ts s hs
  rcases ts with _ | ⟨t, ts⟩
  · apply helse
    · rw [hs.nil]
      exact htail.not_isPrefixOf (by decide) []
    · rw [hs.nil]
      exact htail.not_isPrefixOf (by decide) []
  · obtain ⟨rest, hskip, -, hwritten⟩ := hs.cons
    cases t with
    | lparen =>
      have hinner := hp ts rest hwritten.shows
      rcases he : inner ts with _ | ⟨e, mid⟩ <;> rw [he] at hinner
      · have hnone : grammar.parseOperand inner (.lparen :: ts) = none := by
          simp [Precedence.parseOperand, grammar, he]
        rw [hnone]
        exact (reads_consume hskip).bind_rejects (Rejects.bind hinner)
      · obtain ⟨u, hu, hshows⟩ := hinner
        have hrejects : ")".toList.isPrefixOf (skip u) = false → @Rejects source _ (parsePrimary p) s :=
          fun hclose => (reads_consume hskip).bind_rejects (hu.bind_rejects (Rejects.bind (rejects_expect hclose)))
        rcases mid with _ | ⟨r, mid⟩
        · have hnone : grammar.parseOperand inner (.lparen :: ts) = none := by
            simp [Precedence.parseOperand, grammar, he]
          rw [hnone]
          apply hrejects
          rw [hshows.nil]
          exact htail.not_isPrefixOf (by decide) []
        · obtain ⟨rest', hskip', -, hwritten'⟩ := hshows.cons
          have hother : grammar.closes r = false → ")".toList.isPrefixOf (skip u) = false →
              match grammar.parseOperand inner (.lparen :: ts) with
              | some (e, rest) => ∃ u, @Reads source _ (parsePrimary p) s e u ∧ Shows tail rest u
              | none => Rejects (parsePrimary p) s := by
            intro hopen hclose
            have hnone : grammar.parseOperand inner (.lparen :: ts) = none := by
              simp [Precedence.parseOperand, grammar_opens, he, hopen]
            rw [hnone]
            exact hrejects hclose
          cases r with
          | rparen =>
            have hsome : grammar.parseOperand inner (.lparen :: ts) = some (e, mid) := by
              simp [Precedence.parseOperand, grammar_opens, grammar_closes, he]
            rw [hsome]
            refine ⟨rest', ?_, hwritten'.shows⟩
            exact (reads_consume hskip).bind (hu.bind ((reads_expect hskip').bind (Reads.pure e rest')))
          | structural r h =>
            apply hother rfl
            rw [hskip']
            exact structural_isPrefixOf h (by decide) _ _
          | _ =>
            apply hother rfl
            rw [hskip']
            rfl
    | selector x =>
      refine ⟨rest, reads_else ?_ ?_, hwritten.shows⟩
      · rw [hskip]
        rfl
      · rw [hskip]
        exact x.reads source rest
    | structural r h =>
      apply helse
      · rw [hskip]
        exact structural_isPrefixOf h (by decide) _ _
      · rw [hskip]
        exact structural_isPrefixOf h (by decide) _ _
    | _ =>
      apply helse
      · rw [hskip]
        rfl
      · rw [hskip]
        rfl

/-- On the text of a sequence, the parser does what the descent does on the sequence. -/
theorem simulates_spanset (htail : Tail tail) (room : ℕ) :
    @Simulates source tail (parseSpanset room) (grammar.parse room) := by
  induction room with
  | zero => exact fun _ _ _ => rejects_failHere _ _
  | succ room ih =>
    have hlength : ∀ levels ts e rest,
        Precedence.parseLevels (grammar.parseOperand (grammar.parse room)) levels ts = some (e, rest) →
          rest.length ≤ ts.length := by
      intro levels ts e rest h
      obtain ⟨used, rfl, -⟩ :=
        Precedence.parseLevels_sound (Precedence.operand_sound room) levels ts e rest h
      simp
    have hprimary : @Simulates source tail (parsePrimary (parseSpanset room))
        (Precedence.parseLevels (grammar.parseOperand (grammar.parse room)) []) :=
      simulates_primary htail ih
    have hstructural := simulates_chain (readsOperator_structural htail) hprimary (hlength [])
    have hand := simulates_chain (readsOperator_and htail) hstructural (hlength _)
    exact simulates_chain (readsOperator_or htail) hand (hlength _)

end

end Imbh.Syntax.TraceQl
