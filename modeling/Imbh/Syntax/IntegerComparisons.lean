import Imbh.Lgtm.Execute
import Imbh.Syntax.TraceQl

/-!
# Integer comparisons of TraceQL

A query `{ .key op n }` with an integer literal, from its text to the spans that it selects. The literal
is read as a double, so that the comparison is with the double nearest to it.

* `integer_comparison_iff` — the query selects the spans whose attribute compares as the integers do,
  exactly if the attribute does not tell the literal from its nearest double.
-/

namespace Imbh.Syntax.TraceQl

open Lib Imbh.Core Traces Lgtm Syntax List

/-! ## The query -/

/-- What an operator says of two integers; the patterns say nothing. -/
def Compares : TraceCompareOp → ℤ → ℤ → Prop
  | .eq, m, n => m = n
  | .ne, m, n => m ≠ n
  | .gt, m, n => n < m
  | .ge, m, n => n ≤ m
  | .lt, m, n => m < n
  | .le, m, n => m ≤ n
  | .regex, _, _ | .notRegex, _, _ => False

instance (op : TraceCompareOp) (m n : ℤ) : Decidable (Compares op m n) :=
  match op with
  | .eq => inferInstanceAs (Decidable (m = n))
  | .ne => inferInstanceAs (Decidable (m ≠ n))
  | .gt => inferInstanceAs (Decidable (n < m))
  | .ge => inferInstanceAs (Decidable (n ≤ m))
  | .lt => inferInstanceAs (Decidable (m < n))
  | .le => inferInstanceAs (Decidable (m ≤ n))
  | .regex | .notRegex => inferInstanceAs (Decidable False)

/-- A query `{ .key op n }`, with any whitespace between its tokens. -/
structure IntegerQuery where
  key : Text
  key_ne : key ≠ []
  key_word : ∀ ch ∈ key, isWordChar ch = true
  op : TraceCompareOp
  sign : Sign
  digits : Text
  digits_ne : digits ≠ []
  digits_digit : ∀ ch ∈ digits, ch.isDigit = true
  blanks : Fin 4 → Text
  blanks_space : ∀ i, ∀ ch ∈ blanks i, isWhitespace ch = true

namespace IntegerQuery

def magnitude (q : IntegerQuery) : ℕ := Nat.ofDigitChars 10 q.digits 0

/-- The integer of the literal. -/
def literal (q : IntegerQuery) : ℤ := q.sign.apply q.magnitude

def text (q : IntegerQuery) : Text :=
  '\x7b' :: q.blanks 0 ++ '.' :: q.key ++ q.blanks 1 ++ opText q.op ++ q.blanks 2 ++ q.sign.text ++
    q.digits ++ q.blanks 3 ++ ['\x7d']

end IntegerQuery

section

variable {source s t rest : Text}

theorem reads_numberValue {sign : Sign} {digits : Text} (hne : digits ≠ [])
    (hdigits : ∀ ch ∈ digits, ch.isDigit = true) (hlt : Nat.ofDigitChars 10 digits 0 < 2 ^ 64)
    (h : skip s = sign.text ++ digits ++ t) (hend : Ends isNumberChar t) :
    @Reads source _ float s (signedDouble sign (Nat.ofDigitChars 10 digits 0)) t := by
  refine reads_number h ?_ hend (parseF64_signed hne hdigits sign hlt)
  intro ch hch
  rcases mem_append.mp hch with hch | hch
  · cases sign with
    | bare => exact absurd hch not_mem_nil
    | plus =>
      rw [mem_singleton.mp hch]
      decide
    | minus =>
      rw [mem_singleton.mp hch]
      decide
  · simp [isNumberChar, hdigits ch hch]

/-- The key of a span attribute, behind its dot. -/
theorem predicateTarget_dot {key : Text} (hne : key ≠ []) (range : SourceRange) :
    (predicateTarget ('.' :: key) range : Parse source PredicateTarget) = return .attribute .span key := by
  have hname : (intrinsicNames.find? fun name => name.1 = '.' :: key) = none := by simp [intrinsicNames]
  have hscope : scopeOf ('.' :: key) scopePrefixes = some (.span, key) := by
    simp [scopeOf, scopePrefixes, List.isPrefixOf?]
  unfold predicateTarget
  simp [hname, hscope, hne]

/-- An integer literal is a whole double in the range of an `i64`. -/
theorem numberValue_signedDouble (sign : Sign) {n : ℕ} (h : n ≤ 2 ^ 63) :
    numberValue (signedDouble sign n) =
      .integer (Int64.ofInt (min (2 ^ 63 - 1) (sign.apply (roundSig n)))) := by
  have hle := le_signedDouble sign h
  unfold numberValue
  rw [isWhole_signedDouble sign (by omega), hle.1, hle.2, asI64_signedDouble sign h]
  rfl

/-- A literal begins with a digit or a sign. -/
theorem literal_head {sign : Sign} {digits : Text} (hne : digits ≠ [])
    (hdigits : ∀ ch ∈ digits, ch.isDigit = true) :
    ∃ ch rest, sign.text ++ digits = ch :: rest ∧ (ch.isDigit || ch = '-' || ch = '+') = true := by
  cases sign with
  | bare =>
    obtain ⟨ch, rest, rfl⟩ := exists_cons_of_ne_nil hne
    exact ⟨ch, rest, rfl, by simp [hdigits ch mem_cons_self]⟩
  | plus => exact ⟨'+', digits, rfl, by simp⟩
  | minus => exact ⟨'-', digits, rfl, by simp⟩

theorem ne_quote_of_sign {ch : Char} (h : (ch.isDigit || ch = '-' || ch = '+') = true) :
    ch ≠ '"' ∧ isWhitespace ch = false ∧ isOpChar ch = false := by
  simp only [Bool.or_eq_true, decide_eq_true_eq] at h
  rcases h with (h | rfl) | rfl
  · have hne : ∀ x : Char, x.isDigit = false → ch ≠ x := by
      rintro x hx rfl
      rw [hx] at h
      exact absurd h (by simp)
    refine ⟨hne _ (by decide), not_isWhitespace_of_isDigit h, ?_⟩
    simp [isOpChar, hne '=' (by decide), hne '~' (by decide)]
  all_goals decide

theorem reads_value {scope : AttributeScope} {key : Text} {sign : Sign} {digits : Text}
    (hne : digits ≠ []) (hdigits : ∀ ch ∈ digits, ch.isDigit = true)
    (hlt : Nat.ofDigitChars 10 digits 0 < 2 ^ 64) (h : skip s = sign.text ++ digits ++ t)
    (hend : Ends isNumberChar t) :
    @Reads source _ (parseValue (.attribute scope key)) s
      (numberValue (signedDouble sign (Nat.ofDigitChars 10 digits 0))) t := by
  obtain ⟨ch, rest, hhead, hch⟩ := @literal_head sign digits hne hdigits
  have hskip : skip (sign.text ++ digits ++ t) = sign.text ++ digits ++ t := by rw [← h, skip_skip]
  unfold parseValue
  rw [if_neg (by simp), if_neg (by simp)]
  refine (reads_skipWs s).bind ?_
  rw [h]
  refine (reads_peek _).bind ?_
  rw [hhead, cons_append, head?_cons, if_neg (by simpa using (ne_quote_of_sign hch).1),
    Option.any_some, if_pos hch, ← cons_append, ← hhead]
  exact (reads_numberValue hne hdigits hlt hskip hend).bind (Reads.pure _ _)

/-! ## The translation -/

/-- A level without an operator. -/
theorem reads_chain_stop {operator : Parse source (Option (SpansetExpr → SpansetExpr → SpansetExpr))}
    {operand : Parse source SpansetExpr} {e : SpansetExpr} (hoperand : Reads operand s e t)
    (hoperator : Reads operator t none rest) : Reads (chain operator operand) s e rest :=
  hoperand.bind (reads_loop_stop (hoperator.bind (Reads.pure _ _)))

/-- A selector up to the end of the source. -/
theorem reads_spanset_selector {e : SpansetExpr} (room : ℕ) (hs : "(".toList.isPrefixOf (skip s) = false)
    (h : @Reads source _ parseSelector (skip s) e []) :
    @Reads source _ (parseSpanset (room + 1)) s e [] := by
  have hstructural : @Reads source _ parseStructuralOperator [] none [] :=
    (reads_consumeFirst_none (by simp [structuralTokens]) (by simp [structuralTokens, List.isPrefixOf])).bind
      (Reads.pure _ _)
  have hand : @Reads source _
      (do if ← consume "&&".toList then return some SpansetExpr.and else return none) [] none [] :=
    reads_else rfl (Reads.pure _ _)
  have hor : @Reads source _
      (do if ← consume "||".toList then return some SpansetExpr.or else return none) [] none [] :=
    reads_else rfl (Reads.pure _ _)
  have hprimary : @Reads source _ (parsePrimary (parseSpanset room)) s e [] := reads_else hs h
  exact reads_chain_stop (reads_chain_stop (reads_chain_stop hprimary hstructural) hand) hor

theorem reads_query_end {e : SpansetExpr} (h : @Reads source _ (parseSpanset 128) s e []) :
    @Reads source _ parseQuery s e [] :=
  h.bind ((reads_else rfl (Reads.pure e [])).bind ((reads_finish rfl).bind (Reads.pure e [])))

namespace IntegerQuery

/-- What the key, the operator and the literal say. -/
def predicate (q : IntegerQuery) : SpanPredicate :=
  .attribute .span q.key q.op (numberValue (signedDouble q.sign q.magnitude))

/-- The text behind the literal, and so on to that behind the brace, where the query goes on. -/
def afterLiteral (q : IntegerQuery) (rest : Text) : Text := q.blanks 3 ++ ('\x7d' :: rest)

def afterOp (q : IntegerQuery) (rest : Text) : Text :=
  q.blanks 2 ++ (q.sign.text ++ q.digits ++ q.afterLiteral rest)

def afterKey (q : IntegerQuery) (rest : Text) : Text := q.blanks 1 ++ (opText q.op ++ q.afterOp rest)

def body (q : IntegerQuery) (rest : Text) : Text := q.blanks 0 ++ ('.' :: q.key ++ q.afterKey rest)

theorem text_append (q : IntegerQuery) (rest : Text) : q.text ++ rest = '\x7b' :: q.body rest := by
  simp [text, body, afterKey, afterOp, afterLiteral]

theorem reads_predicate (q : IntegerQuery) (h : q.magnitude < 2 ^ 64)
    (hs : skip s = '.' :: q.key ++ q.afterKey rest) :
    @Reads source _ parsePredicate s q.predicate (q.afterLiteral rest) := by
  obtain ⟨ch, literal, hhead, hch⟩ := @literal_head q.sign q.digits q.digits_ne q.digits_digit
  obtain ⟨x, oprest, hopText, hopWord, hopSpace⟩ := opText_cons q.op
  have hkeyEnd : Ends isWordChar (q.afterKey rest) := by
    refine Ends.append_blank (fun _ => isWordChar_ascii) (q.blanks_space 1) ?_
    rw [hopText]
    exact Ends.cons hopWord _
  have hopEnd : Ends isOpChar (q.afterOp rest) := by
    refine Ends.append_blank (fun _ => isOpChar_ascii) (q.blanks_space 2) ?_
    rw [hhead]
    exact Ends.cons (ne_quote_of_sign hch).2.2 _
  have hliteralEnd : Ends isNumberChar (q.afterLiteral rest) :=
    Ends.append_blank (fun _ => isNumberChar_ascii) (q.blanks_space 3) (Ends.cons (by decide) _)
  have hskipKey : skip (q.afterKey rest) = opText q.op ++ q.afterOp rest := by
    rw [afterKey, skip_append (q.blanks_space 1), hopText]
    exact skip_cons hopSpace
  have hskipOp : skip (q.afterOp rest) = q.sign.text ++ q.digits ++ q.afterLiteral rest := by
    rw [afterOp, skip_append (q.blanks_space 2), hhead]
    exact skip_cons (ne_quote_of_sign hch).2.1
  unfold parsePredicate
  refine (reads_identifier hs (by simp) ?_ hkeyEnd).bind ?_
  · exact forall_mem_cons.mpr ⟨by decide, q.key_word⟩
  dsimp only
  refine (reads_compareOperator hskipKey hopEnd).bind ?_
  rw [predicateTarget_dot q.key_ne]
  refine (Reads.pure _ _).bind ?_
  exact (reads_value q.digits_ne q.digits_digit h hskipOp hliteralEnd).bind (Reads.pure _ _)

/-- The query is read as a selector, whatever follows it. -/
theorem reads_selector (q : IntegerQuery) (h : q.magnitude < 2 ^ 64) (rest : Text) :
    @Reads source _ parseSelector (q.text ++ rest) (.select q.predicate) rest := by
  have hbody : skip (q.body rest) = '.' :: q.key ++ q.afterKey rest := by
    rw [body, skip_append (q.blanks_space 0)]
    exact skip_cons (by decide)
  have hclose : skip (q.afterLiteral rest) = "\x7d".toList ++ rest := by
    rw [afterLiteral, skip_append (q.blanks_space 3)]
    exact skip_cons (by decide)
  have hround : @Reads source _ (selectorBody []) ('.' :: q.key ++ q.afterKey rest)
      (.inr [q.predicate]) rest :=
    (q.reads_predicate h (by rw [← hbody, skip_skip])).bind (reads_if hclose (Reads.pure _ _))
  rw [text_append]
  unfold parseSelector
  refine (reads_expect (t := q.body rest) (skip_cons (by decide))).bind (reads_else ?_ ?_)
  · rw [hbody]
    simp [List.isPrefixOf]
  · rw [hbody]
    exact (reads_loop_stop hround).bind (Reads.pure _ _)

theorem reads_text (q : IntegerQuery) (h : q.magnitude < 2 ^ 64) :
    @Reads source _ parseQuery q.text (.select q.predicate) [] := by
  have hskip : skip q.text = '\x7b' :: q.body [] := by
    rw [← append_nil q.text, text_append]
    exact skip_cons (by decide)
  have hselector := @reads_selector source q h []
  rw [text_append] at hselector
  apply reads_query_end
  apply reads_spanset_selector
  · rw [hskip]
    simp [List.isPrefixOf]
  · rw [hskip]
    exact hselector

end IntegerQuery

/-- The translation of the query. -/
theorem IntegerQuery.translate_text (q : IntegerQuery) (h : q.magnitude < 2 ^ 64)
    (context : TranslateContext) :
    translateTraceql q.text context = .ok (.trace (.select q.predicate)) := by
  obtain ⟨c, hc, -⟩ := @IntegerQuery.reads_text q.text q h (Cursor.new q.text) rfl
  have hrun : (TranslatedQuery.trace <$> parseQuery : Parse q.text TranslatedQuery) (Cursor.new q.text) =
      .ok (.trace (.select q.predicate), c) := by
    rw [map_eq_pure_bind]
    exact run_bind_ok.mpr ⟨_, _, hc, rfl⟩
  unfold translateTraceql translate
  rw [hrun]
  rfl

end

/-! ## The spans that are selected -/

section

variable (regex : Text → Option (Text → Bool)) (engine : SqlEngine) (promoted : List Text)
  {reader : JsonReader}

/-- The source is translated to a predicate; storage accepts the span for each of its candidate filters, and
the predicate holds of it. -/
def Selects (source : Text) (context : TranslateContext) (trace : Option SemanticTrace)
    (spans : List SemanticSpan) (s : StoredSpan reader) : Prop :=
  ∃ p, translateTraceql source context = .ok (.trace (.select p)) ∧
    (∀ f ∈ candidateFilters (.select p), f.holds engine promoted s = true) ∧
      predicateMatches regex (semanticSpan s) trace spans p = .ok true

/-- The attribute of the key is the integer. -/
structure HasInteger (s : StoredSpan reader) (key : Text) (m : Int64) : Prop where
  mem : (key, .int m) ∈ fromCanonicalJson reader s.attributes
  unique : ∀ v, (key, v) ∈ fromCanonicalJson reader s.attributes → v = .int m

/-- The attribute does not come between the literal and the double nearest to it. -/
def KeepsApart : TraceCompareOp → ℤ → ℤ → Prop
  | .eq, m, n | .ne, m, n => throughF64 n = n ∨ (m ≠ n ∧ m ≠ throughF64 n)
  | .lt, m, n | .ge, m, n => ¬ (min n (throughF64 n) ≤ m ∧ m < max n (throughF64 n))
  | .gt, m, n | .le, m, n => ¬ (min n (throughF64 n) < m ∧ m ≤ max n (throughF64 n))
  | .regex, _, _ | .notRegex, _, _ => True

theorem keepsApart_iff (op : TraceCompareOp) (m n : ℤ) :
    (Compares op m (throughF64 n) ↔ Compares op m n) ↔ KeepsApart op m n := by
  cases op <;> simp only [Compares, KeepsApart] <;> grind

variable {regex engine promoted}

/-- A comparison of two integers is that of their values. -/
theorem compareValue_integers {m n : Int64} {op : TraceCompareOp} :
    compareValue regex (some (.integer m)) op (.integer n) = .ok true ↔
      Compares op m.toInt n.toInt := by
  rw [compareValue_scalar (by simp)]
  cases op with
  | eq => simp [compareScalar, semanticEq, SemanticValue.beq, Compares, Int64.toInt_inj]
  | ne => simp [compareScalar, semanticEq, SemanticValue.beq, Compares, Int64.toInt_inj]
  | regex => simp [compareScalar, Compares]
  | notRegex => simp [compareScalar, Compares]
  | _ =>
    simp only [compareScalar, semanticPartialCmp, Compares, Except.ok.injEq]
    rcases lt_trichotomy m.toInt n.toInt with h | h | h
    · simp [compare_lt_iff_lt.mpr h, ordered]
      omega
    · simp [compare_eq_iff_eq.mpr h, ordered]
      omega
    · simp [compare_gt_iff_gt.mpr h, ordered]
      omega

theorem HasInteger.getAttr {s : StoredSpan reader} {key : Text} {m : Int64} (h : HasInteger s key m) :
    getAttr (fromCanonicalJson reader s.attributes) key = some (.int m) := by
  rcases hfind : (fromCanonicalJson reader s.attributes).find? fun kv => kv.1 = key with _ | ⟨k, v⟩
  · have hnone := find?_eq_none.mp hfind _ h.mem
    exact absurd (decide_eq_true rfl) hnone
  · have hk : k = key := by simpa using find?_some hfind
    have hv := h.unique v (hk ▸ mem_of_find?_eq_some hfind)
    rw [Core.getAttr, hfind, hv]
    rfl

theorem HasInteger.get {s : StoredSpan reader} {key : Text} {m : Int64} (h : HasInteger s key m) :
    (semanticSpan s).attributes.get key = some (.integer m) := by
  have hmem : (key, SemanticValue.integer m) ∈
      typedAttributes (fromCanonicalJson reader s.attributes) :=
    mem_filterMap.mpr ⟨_, h.mem, rfl⟩
  unfold TypedAttributes.get
  dsimp only [semanticSpan]
  rcases hfind : (typedAttributes (fromCanonicalJson reader s.attributes)).reverse.find?
      fun kv => kv.1 = key with _ | ⟨k, v⟩
  · have hnone := find?_eq_none.mp hfind _ (mem_reverse.mpr hmem)
    exact absurd (decide_eq_true rfl) hnone
  · have hk : k = key := by simpa using find?_some hfind
    obtain ⟨kv, hkv, hsome⟩ := mem_filterMap.mp (mem_reverse.mp (mem_of_find?_eq_some hfind))
    obtain ⟨w, hw, heq⟩ := Option.map_eq_some_iff.mp hsome
    cases heq
    have hint := h.unique kv.2 (hk ▸ hkv)
    rw [hint] at hw
    cases hw
    rw [hfind]
    rfl

/-- But for the keys of the service column, storage accepts the span for the bounds of a comparison that
holds. -/
theorem HasInteger.holds {s : StoredSpan reader} {key : Text} {m n : Int64} {op : TraceCompareOp}
    (h : HasInteger s key m) (hagree : reader.Agree s.attributes) (hkey : builtinColumn key = false)
    (hcompares : Compares op m.toInt n.toInt) :
    ∀ f ∈ pushNumericAttr key op n, f.holds engine promoted s = true := by
  have hplain : PlainAt s key := by
    refine ⟨hkey, fun v hv => ?_, fun vs hvs => ?_⟩
    · rw [h.get] at hv
      rw [h.getAttr, ← Option.some.inj hv]
      rfl
    · rw [h.get] at hvs
      exact absurd hvs (by simp)
  intro f hf
  obtain ⟨-, -, nop, rfl, -⟩ := pushNumericAttr_accepts hf
  have hmatch : compareValue (fun _ => none) ((semanticSpan s).attributes.get key) op (.integer n) = .ok true := by
    rw [h.get]
    exact compareValue_integers.mpr hcompares
  apply attrNum_holds hagree hmatch hf ⟨hplain, ?_⟩
  rw [h.get]
  simp

section

variable {s : StoredSpan reader} {m : Int64} {context : TranslateContext} {trace : Option SemanticTrace}
  {spans : List SemanticSpan} (q : IntegerQuery)

/-- A query selects the spans that storage accepts and that compare with the literal as a double. -/
theorem selects_iff (hrange : -2 ^ 63 ≤ q.literal ∧ q.literal < 2 ^ 63) (hattr : HasInteger s q.key m) :
    Selects regex engine promoted q.text context trace spans s ↔
      (∀ f ∈ pushNumericAttr q.key q.op (Int64.ofInt (throughF64 q.literal)),
        f.holds engine promoted s = true) ∧ Compares q.op m.toInt (throughF64 q.literal) := by
  have hmag : q.magnitude ≤ 2 ^ 63 := by
    unfold IntegerQuery.literal at hrange
    cases hsign : q.sign <;> rw [hsign] at hrange <;> simp only [Sign.apply] at hrange <;> omega
  have habs : q.literal.natAbs ≤ 2 ^ 63 := by omega
  have hvalue : q.predicate =
      .attribute .span q.key q.op (.integer (Int64.ofInt (throughF64 q.literal))) := by
    rw [IntegerQuery.predicate, numberValue_signedDouble _ hmag, throughF64_apply]
    rfl
  have htranslate := q.translate_text (by omega) context
  have hrounded := throughF64_range habs
  have htoInt : (Int64.ofInt (throughF64 q.literal)).toInt = throughF64 q.literal :=
    Int64.toInt_ofInt_of_le hrounded.1 hrounded.2
  have hmatches : predicateMatches regex (semanticSpan s) trace spans q.predicate = .ok true ↔
      Compares q.op m.toInt (throughF64 q.literal) := by
    rw [hvalue]
    simp only [predicateMatches]
    rw [hattr.get, compareValue_integers, htoInt]
  have hfilters : candidateFilters (.select q.predicate) =
      pushNumericAttr q.key q.op (Int64.ofInt (throughF64 q.literal)) := by
    rw [hvalue, candidateFilters, pushPredicate]
    cases q.op <;> rfl
  unfold Selects
  rw [htranslate]
  constructor
  · rintro ⟨p, hp, hholds, hmatch⟩
    cases hp
    rw [hfilters] at hholds
    exact ⟨hholds, hmatches.mp hmatch⟩
  · rintro ⟨hholds, hcompares⟩
    exact ⟨_, rfl, hfilters ▸ hholds, hmatches.mpr hcompares⟩

/-- A query with an integer literal selects the spans whose attribute compares as the integers do, exactly
if the attribute keeps apart from the literal's double and the service column, where it is read, meets the
bounds too. -/
theorem integer_comparison_iff (hrange : -2 ^ 63 ≤ q.literal ∧ q.literal < 2 ^ 63)
    (hagree : reader.Agree s.attributes) (hattr : HasInteger s q.key m) :
    (Selects regex engine promoted q.text context trace spans s ↔ Compares q.op m.toInt q.literal) ↔
      KeepsApart q.op m.toInt q.literal ∧
        (builtinColumn q.key = true → Compares q.op m.toInt q.literal →
          ∀ f ∈ pushNumericAttr q.key q.op (Int64.ofInt q.literal), f.holds engine promoted s = true) := by
  rw [selects_iff q hrange hattr, ← keepsApart_iff]
  have hexact : Int64.toInt (Int64.ofInt q.literal) = q.literal := Int64.toInt_ofInt_of_le hrange.1 hrange.2
  by_cases hsmall : q.literal.natAbs < 2 ^ 53
  · -- the literal is its own double
    rw [throughF64_of_lt hsmall]
    have hholds : builtinColumn q.key = false → Compares q.op m.toInt q.literal →
        ∀ f ∈ pushNumericAttr q.key q.op (Int64.ofInt q.literal), f.holds engine promoted s = true := by
      intro hkey hcompares
      apply hattr.holds hagree hkey
      rwa [hexact]
    rcases hkey : builtinColumn q.key with _ | _
    · have hholds := hholds hkey
      tauto
    · tauto
  · -- no bound is pushed for the literal, nor for its double
    have hlarge := le_natAbs_throughF64 (not_lt.mp hsmall)
    have hrounded := throughF64_range (n := q.literal) (by omega)
    have hnone : pushNumericAttr q.key q.op (Int64.ofInt (throughF64 q.literal)) = [] := by
      apply if_pos
      rwa [Int64.toInt_ofInt_of_le hrounded.1 hrounded.2]
    have hnone' : pushNumericAttr q.key q.op (Int64.ofInt q.literal) = [] := by
      apply if_pos
      rw [hexact]
      exact not_lt.mp hsmall
    simp [hnone, hnone']

end

end

/-! ## A large integer -/

/-- The query `{ .a op n }`. -/
def queryOfA (op : TraceCompareOp) (n : ℕ) : IntegerQuery where
  key := ['a']
  key_ne := by simp
  key_word := by simp [isWordChar]
  op := op
  sign := .bare
  digits := decimal n
  digits_ne := decimal_ne_nil n
  digits_digit _ h := isDigit_of_mem_decimal h
  blanks _ := [' ']
  blanks_space _ := by simp [isWhitespace]

theorem queryOfA_literal (op : TraceCompareOp) (n : ℕ) : (queryOfA op n).literal = n :=
  congrArg Nat.cast Nat.ofDigitChars_ten_toDigits

/-- The attributes `{"a":9007199254740992}`. -/
def largeAttribute : JsonReader :=
  oneDocument "\x7b\"a\":9007199254740992\x7d".toList [(['a'], .i64 9007199254740992)]

def largeSpan : StoredSpan largeAttribute where
  traceId := [1]
  spanId := [7]
  parentSpanId := none
  name := "b".toList
  kind := "INTERNAL".toList
  startTime := 10
  durationNs := 5
  statusCode := "UNSET".toList
  statusMessage := none
  service := none
  attributes := "\x7b\"a\":9007199254740992\x7d".toList
  resource := []
  scope := []
  events := none
  links := none
  promoted _ := none
  promoted_eq _ _ h := absurd h (by simp)

theorem largeSpan_attribute : HasInteger largeSpan ['a'] 9007199254740992 := by
  have hattributes : fromCanonicalJson largeAttribute largeSpan.attributes =
      [(['a'], .int 9007199254740992)] := rfl
  constructor
  · rw [hattributes]
    exact mem_cons_self
  · intro v hv
    rw [hattributes] at hv
    cases mem_singleton.mp hv
    rfl

theorem integer_comparison_small :
    Selects (fun _ => none) noEngine [] "\x7b .a > 5 \x7d".toList ⟨[]⟩ none [] largeSpan ↔
      Compares .gt 9007199254740992 5 :=
  (integer_comparison_iff (queryOfA .gt 5) (by rw [queryOfA_literal]; decide)
    (oneDocument_agree _ _ _) largeSpan_attribute).mpr
      ⟨by rw [queryOfA_literal]; simp [queryOfA, KeepsApart, throughF64_of_lt], fun h => absurd h (by decide)⟩

/-- The literal `9007199254740993` selects the attribute `9007199254740992`. -/
theorem integer_comparison_rounded :
    ¬ (Selects (fun _ => none) noEngine [] "\x7b .a = 9007199254740993 \x7d".toList ⟨[]⟩ none []
      largeSpan ↔ Compares .eq 9007199254740992 9007199254740993) := by
  have hselects : Selects (fun _ => none) noEngine [] (queryOfA .eq 9007199254740993).text ⟨[]⟩ none []
      largeSpan := by
    apply (selects_iff _ (by rw [queryOfA_literal]; decide) largeSpan_attribute).mpr
    rw [queryOfA_literal]
    exact ⟨by decide, by decide⟩
  intro h
  exact absurd (h.mp hselects) (by decide)

end Imbh.Syntax.TraceQl
