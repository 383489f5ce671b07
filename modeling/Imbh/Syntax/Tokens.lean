import Imbh.Syntax.Safe

/-!
# Tokens

The grammars of PromQL and LogQL say of which tokens a query consists, and a text spells some tokens: any
whitespace may stand between them, strings have escapes, a duration is a sum of components, and behind a
word no character of a word comes next.
-/

namespace Imbh.Syntax

open Lib Lgtm List

/-! ## Strings and durations -/

/-- A string and its characters between quotes. -/
inductive Escaped : Text → Text → Prop
  | nil : Escaped [] []
  | plain {ch : Char} {value body : Text} (hquote : ch ≠ '"') (hescape : ch ≠ '\\') (h : Escaped value body) :
      Escaped (ch :: value) (ch :: body)
  | escape {e ch : Char} {value body : Text} (hchar : escapeChar e = some ch) (h : Escaped value body) :
      Escaped (ch :: value) ('\\' :: e :: body)

/-- Only whitespace. -/
def Blank (s : Text) : Prop := ∀ ch ∈ s, isWhitespace ch = true

/-- A component of a duration: digits and a unit. -/
structure Component where
  digits : Text
  blank : Text
  unit : Text × ℕ
  digits_ne : digits ≠ []
  isDigit : ∀ ch ∈ digits, ch.isDigit = true
  isBlank : Blank blank
  unit_mem : unit ∈ durationUnits

namespace Component

def text (c : Component) : Text := c.digits ++ (c.blank ++ c.unit.1)

def nanos (c : Component) : ℕ := Nat.ofDigitChars 10 c.digits 0 * c.unit.2

end Component

/-- A text as the components of a duration, with nothing between them. -/
structure Components (ns : ℕ) (s : Text) where
  components : List Component
  components_ne : components ≠ []
  sum_eq : (components.map Component.nanos).sum = ns
  text_eq : s = components.flatMap Component.text

/-! ## Tokens -/

/-- A name in the alphabet of identifiers. -/
def IsWord (w : Text) : Prop := w ≠ [] ∧ ∀ ch ∈ w, isWordChar ch = true

theorem isWord_iff {w : Text} : IsWord w ↔ (!w.isEmpty && w.all isWordChar) = true := by simp [IsWord]

instance (w : Text) : Decidable (IsWord w) := decidable_of_iff _ isWord_iff.symm

/-- What stands for itself. -/
def marks : List Text :=
  [ "(".toList, ")".toList, "\x7b".toList, "\x7d".toList, "[".toList, "]".toList, ",".toList,
    "=~".toList, "!~".toList, "!=".toList, "=".toList, "|=".toList, "|~".toList, "|?".toList, "!?".toList,
    "offset".toList ]

inductive Token
  | mark (m : Text)
  | word (w : Text)
  | quoted (value : Text)
  | number (digits : Text)
  | duration (ns : ℕ)

namespace Token

/-- The texts of a token. -/
def Spells : Token → Text → Prop
  | mark m, s => m ∈ marks ∧ s = m
  | word w, s => IsWord w ∧ s = w
  | quoted value, s => ∃ body, Escaped value body ∧ s = '"' :: (body ++ ['"'])
  | number digits, s => digits ≠ [] ∧ (∀ ch ∈ digits, isNumberChar ch = true) ∧ s = digits
  | duration ns, s => ns < 2 ^ 64 ∧ Nonempty (Components ns s)

/-- Words are kept apart. -/
def Apart : Token → Text → Prop
  | word _, s => Ends isWordChar s
  | _, _ => True

/-- The first characters of a token. -/
def Begins : Token → Char → Prop
  | mark m, ch => m.head? = some ch
  | word _, ch => isWordChar ch = true
  | quoted _, ch => ch = '"'
  | number _, ch => isNumberChar ch = true
  | duration _, ch => ch.isDigit = true

end Token

/-- A text of some tokens. -/
inductive Spelled : List Token → Text → Prop
  | nil {blank : Text} (h : Blank blank) : Spelled [] blank
  | cons {t : Token} {ts : List Token} {blank text s : Text} (hblank : Blank blank) (htext : t.Spells text)
      (hapart : t.Apart s) (h : Spelled ts s) : Spelled (t :: ts) (blank ++ (text ++ s))

variable {m : Text} {ch : Char}

section

variable {t : Token} {ts : List Token} {s text : Text}

theorem Token.Spells.begins (h : t.Spells text) : ∃ ch rest, text = ch :: rest ∧ t.Begins ch := by
  cases t with
  | mark m =>
    obtain ⟨hmem, rfl⟩ := h
    have hne : text ≠ [] := by
      rintro rfl
      simp [marks] at hmem
    obtain ⟨ch, rest, rfl⟩ := exists_cons_of_ne_nil hne
    exact ⟨ch, rest, rfl, rfl⟩
  | word w =>
    obtain ⟨⟨hne, hword⟩, rfl⟩ := h
    obtain ⟨ch, rest, rfl⟩ := exists_cons_of_ne_nil hne
    exact ⟨ch, rest, rfl, hword ch mem_cons_self⟩
  | quoted value =>
    obtain ⟨body, -, rfl⟩ := h
    exact ⟨_, _, rfl, rfl⟩
  | number digits =>
    obtain ⟨hne, hdigits, rfl⟩ := h
    obtain ⟨ch, rest, rfl⟩ := exists_cons_of_ne_nil hne
    exact ⟨ch, rest, rfl, hdigits ch mem_cons_self⟩
  | duration ns =>
    obtain ⟨-, ⟨components, hne, -, rfl⟩⟩ := h
    obtain ⟨c, rest, rfl⟩ := exists_cons_of_ne_nil hne
    obtain ⟨ch, digits, hdigits⟩ := exists_cons_of_ne_nil c.digits_ne
    refine ⟨ch, digits ++ (c.blank ++ c.unit.1) ++ rest.flatMap Component.text, ?_, ?_⟩
    · simp [Component.text, hdigits]
    · exact c.isDigit ch (by simp [hdigits])

theorem Token.Spells.not_isWhitespace (h : t.Spells text) (hch : t.Begins ch) : isWhitespace ch = false := by
  cases t with
  | mark m =>
    have hmarks : ∀ m ∈ marks, m.head?.all fun ch => !isWhitespace ch := by decide
    have hall := hmarks m h.1
    rw [show m.head? = some ch from hch] at hall
    simpa using hall
  | word w => exact not_isWhitespace_of_ascii (isWordChar_ascii hch)
  | quoted value =>
    cases hch
    decide
  | number digits => exact not_isWhitespace_of_ascii (isNumberChar_ascii hch)
  | duration ns => exact not_isWhitespace_of_isDigit hch

theorem Spelled.of_blank {blank : Text} (hblank : Blank blank) (h : Spelled ts s) : Spelled ts (blank ++ s) := by
  cases h with
  | nil h => exact .nil fun ch hch => (mem_append.mp hch).elim (hblank ch) (h ch)
  | cons hinner htext hapart h =>
    rw [← append_assoc]
    exact .cons (fun ch hch => (mem_append.mp hch).elim (hblank ch) (hinner ch)) htext hapart h

theorem Spelled.of_skip (h : Spelled ts (skip s)) : Spelled ts s := by
  rw [← takeWhile_append_dropWhile (p := isWhitespace) (l := s)]
  exact h.of_blank fun ch hch => mem_takeWhile_imp hch

theorem Spelled.behind {rest : Text} (hskip : skip s = text ++ rest) (htext : t.Spells text) (hapart : t.Apart rest)
    (h : Spelled ts rest) : Spelled (t :: ts) s := by
  refine Spelled.of_skip ?_
  rw [hskip]
  show Spelled (t :: ts) ([] ++ (text ++ rest))
  exact .cons (by simp [Blank]) htext hapart h

/-- The first token of a text, behind the whitespace. -/
theorem Spelled.uncons (h : Spelled (t :: ts) s) :
    ∃ text rest, skip s = text ++ rest ∧ t.Spells text ∧ t.Apart rest ∧ Spelled ts rest := by
  cases h with
  | @cons _ _ blank text rest hblank htext hapart h =>
    refine ⟨text, rest, ?_, htext, hapart, h⟩
    obtain ⟨ch, tail, rfl, hch⟩ := htext.begins
    rw [skip_append hblank, cons_append, skip_cons (htext.not_isWhitespace hch)]

theorem Spelled.blank (h : Spelled [] s) : skip s = [] := by
  cases h with
  | nil h => exact dropWhile_eq_nil_iff.mpr h

theorem Spelled.skip (h : Spelled ts s) : Spelled ts (skip s) := by
  cases ts with
  | nil =>
    rw [h.blank]
    exact .nil (by simp [Blank])
  | cons t ts =>
    obtain ⟨text, rest, hs, htext, hapart, hrest⟩ := h.uncons
    exact .behind ((skip_skip s).trans hs) htext hapart hrest

theorem Spelled.begins (h : Spelled (t :: ts) s) : ∃ ch rest, Imbh.Syntax.skip s = ch :: rest ∧ t.Begins ch := by
  obtain ⟨text, rest, hs, htext, -, -⟩ := h.uncons
  obtain ⟨ch, tail, rfl, hch⟩ := htext.begins
  exact ⟨ch, tail ++ rest, hs, hch⟩

/-- A character is none with which the next token begins. -/
def NotNext (ch : Char) (ts : List Token) : Prop := ∀ t ∈ ts.head?, ¬ t.Begins ch

theorem NotNext.nil (ch : Char) : NotNext ch [] := fun _ h => absurd h (by simp)

theorem NotNext.mark (h : m.head? ≠ some ch) (ts : List Token) : NotNext ch (.mark m :: ts) := by
  rintro _ ⟨⟩
  exact h

theorem NotNext.word (h : isWordChar ch = false) (w : Text) (ts : List Token) : NotNext ch (.word w :: ts) := by
  rintro _ ⟨⟩ hbegins
  exact Bool.false_ne_true (h.symm.trans hbegins)

theorem Spelled.head_ne (h : Spelled ts s) (hnext : NotNext ch ts) : (Imbh.Syntax.skip s).head? ≠ some ch := by
  cases ts with
  | nil => simp [h.blank]
  | cons t ts =>
    obtain ⟨x, rest, hs, hx⟩ := h.begins
    rw [hs]
    rintro ⟨⟩
    exact hnext t rfl hx

/-- Where no part of a number or of a word can come next, whitespace or not. -/
theorem Spelled.ends (h : Spelled ts s) {isPart : Char → Bool}
    (hpart : ∀ ch, isPart ch = true → 33 ≤ ch.toNat ∧ ch.toNat ≤ 126)
    (hnext : ∀ t ∈ ts.head?, ∀ ch, t.Begins ch → isPart ch = false) : Ends isPart s := by
  rw [← takeWhile_append_dropWhile (p := isWhitespace) (l := s)]
  refine Ends.append_blank hpart (fun ch hch => mem_takeWhile_imp hch) fun ch hch => ?_
  cases ts with
  | nil => simp [show s.dropWhile isWhitespace = [] from h.blank] at hch
  | cons t ts =>
    obtain ⟨x, rest, hs, hx⟩ := h.begins
    rw [show s.dropWhile isWhitespace = x :: rest from hs] at hch
    cases hch
    exact hnext t rfl ch hx

end

/-! ## Readers of tokens -/

section

variable {source : Text} {α β : Type}

/-- The parser reads some tokens before others, however they are spelled, with a value. -/
def Takes (p : Parse source α) (ts : List Token) (a : α) (rest : List Token) : Prop :=
  ∀ s, Spelled (ts ++ rest) s → ∃ t, Spelled rest t ∧ Reads p s a t

/-- What the parser reads spells tokens of its value, before any tokens that the rest spells. -/
def Yields (p : Parse source α) (W : α → List Token → Prop) : Prop :=
  ∀ c a c', p c = .ok (a, c') →
    ∃ ts, W a ts ∧ ∀ rest, Spelled rest c'.remaining → Spelled (ts ++ rest) c.remaining

variable {p : Parse source α} {f : α → Parse source β} {ts us rest : List Token} {a : α} {b : β}

theorem Takes.pure (a : α) (rest : List Token) : Takes (Pure.pure a : Parse source α) [] a rest :=
  fun s hs => ⟨s, hs, Reads.pure a s⟩

theorem Takes.bind (hp : Takes p ts a (us ++ rest)) (hf : Takes (f a) us b rest) :
    Takes (p >>= f) (ts ++ us) b rest := by
  intro s hs
  rw [append_assoc] at hs
  obtain ⟨t, ht, hread⟩ := hp s hs
  obtain ⟨u, hu, hread'⟩ := hf t ht
  exact ⟨u, hu, hread.bind hread'⟩

theorem Takes.cons {t : Token} (hp : Takes p [t] a (us ++ rest)) (hf : Takes (f a) us b rest) :
    Takes (p >>= f) (t :: us) b rest :=
  hp.bind hf

/-- A parser behind which no token is read. -/
theorem Takes.bind_last (hp : Takes p ts a rest) (hf : Takes (f a) [] b rest) : Takes (p >>= f) ts b rest := by
  intro s hs
  obtain ⟨t, ht, hread⟩ := hp s hs
  obtain ⟨u, hu, hread'⟩ := hf t ht
  exact ⟨u, hu, hread.bind hread'⟩

/-- A parser that reads no token. -/
theorem Takes.bind_none (hp : Takes p [] a (us ++ rest)) (hf : Takes (f a) us b rest) : Takes (p >>= f) us b rest :=
  hp.bind hf

/-! ### Marks -/

theorem reads_consume_mark {s : Text} (h : Spelled (.mark m :: rest) s) :
    ∃ t, Spelled rest t ∧ @Reads source _ (consume m) s true t := by
  obtain ⟨text, t, hs, ⟨-, rfl⟩, -, ht⟩ := h.uncons
  exact ⟨t, ht, reads_consume hs⟩

theorem Takes.consume (m : Text) (rest : List Token) : @Takes source _ (consume m) [.mark m] true rest :=
  fun _ hs => reads_consume_mark hs

/-- A text with another first character begins with no such token. -/
theorem isPrefixOf_eq_false {s : Text} (hm : m.head? = some ch) (hs : s.head? ≠ some ch) :
    m.isPrefixOf s = false := by
  obtain ⟨m, rfl⟩ := head?_eq_some_iff.mp hm
  rcases s with _ | ⟨x, s⟩
  · rfl
  · have hne : (ch == x) = false := by
      simp only [beq_eq_false_iff_ne]
      rintro rfl
      exact hs rfl
    simp [List.isPrefixOf, hne]

theorem Takes.consume_not (ch : Char) (hm : m.head? = some ch) (h : NotNext ch rest) :
    @Takes source _ (Imbh.Syntax.consume m) [] false rest := fun s hs =>
  ⟨Imbh.Syntax.skip s, hs.skip, reads_consume_not (isPrefixOf_eq_false hm (hs.head_ne h))⟩

theorem Takes.expect (m : Text) (rest : List Token) : @Takes source _ (expect m) [.mark m] () rest :=
  (Takes.consume m rest).bind_last (Takes.pure () rest)

theorem consume_eq {found : Bool} {c c' : Cursor source} (h : consume m c = .ok (found, c')) :
    if found then skip c.remaining = m ++ c'.remaining else c'.remaining = skip c.remaining := by
  unfold consume at h
  dsimp only at h
  split at h
  · rename_i hprefix
    obtain ⟨k, hk⟩ := isPrefixOf_iff_prefix.mp hprefix
    cases h
    rw [Cursor.skipWs_remaining] at hk
    simp [← hk]
  · cases h
    simp

theorem yields_consume (hm : m ∈ marks) :
    @Yields source _ (consume m) fun found ts => ts = if found then [.mark m] else [] := by
  intro c found c' h
  have heq := consume_eq h
  refine ⟨_, rfl, fun rest hrest => ?_⟩
  cases found with
  | true =>
    rw [if_pos rfl] at heq
    exact .behind heq ⟨hm, rfl⟩ trivial hrest
  | false =>
    rw [if_neg Bool.false_ne_true] at heq
    exact Spelled.of_skip (heq ▸ hrest)

theorem yields_expect (hm : m ∈ marks) : @Yields source _ (expect m) fun _ ts => ts = [.mark m] := by
  intro c u c' h
  obtain ⟨found, c₁, hfound, h⟩ := run_bind_ok.mp h
  obtain ⟨ts, rfl, hspelled⟩ := yields_consume hm c found c₁ hfound
  split at h
  · rename_i htrue
    obtain ⟨-, rfl⟩ := run_pure_ok.mp h
    subst htrue
    exact ⟨_, rfl, hspelled⟩
  · cases h

/-! ### Words, strings and numbers -/

theorem reads_identifier_word {w s : Text} (h : Spelled (.word w :: rest) s) :
    ∃ range t, Spelled rest t ∧ @Reads source _ identifier s (w, range) t := by
  obtain ⟨text, t, hs, ⟨⟨hne, hword⟩, rfl⟩, hapart, ht⟩ := h.uncons
  exact ⟨_, t, ht, reads_identifier hs hne hword hapart⟩

/-- A word, whose range is known only behind it. -/
theorem Takes.identifier {w : Text} {f : Text × SourceRange → Parse source β}
    (h : ∀ range, Takes (f (w, range)) ts b rest) : Takes (identifier >>= f) (.word w :: ts) b rest := by
  intro s hs
  obtain ⟨range, t, ht, hread⟩ := reads_identifier_word hs
  obtain ⟨u, hu, hread'⟩ := h range t ht
  exact ⟨u, hu, hread.bind hread'⟩

theorem yields_identifier :
    @Yields source _ identifier fun word ts => IsWord word.1 ∧ ts = [.word word.1] := by
  intro c word c' h
  unfold identifier at h
  dsimp only at h
  split at h
  · cases h
  · rename_i hne
    cases h
    have hword : ∀ ch ∈ c.skipWs.remaining.takeWhile isWordChar, isWordChar ch = true := fun ch hch =>
      mem_takeWhile_imp hch
    refine ⟨_, ⟨⟨hne, hword⟩, rfl⟩, fun rest hrest => ?_⟩
    have hsplit : skip c.remaining = c.skipWs.remaining.takeWhile isWordChar ++
        (c.skipWs.advance (c.skipWs.remaining.takeWhile isWordChar).length).remaining := by
      rw [Cursor.advance_remaining, drop_takeWhile, takeWhile_append_dropWhile, Cursor.skipWs_remaining]
    refine .behind hsplit ⟨⟨hne, hword⟩, rfl⟩ (fun ch hch => ?_) hrest
    rw [Cursor.advance_remaining, drop_takeWhile] at hch
    have hnot := head?_dropWhile_not isWordChar c.skipWs.remaining
    rw [Option.mem_def.mp hch] at hnot
    simpa using hnot

theorem quotedBody_escaped {value body : Text} (h : Escaped value body) (t : Text) :
    quotedBody (body ++ '"' :: t) = (.closed value, body.length + 1) := by
  induction h with
  | nil => rfl
  | @plain ch value body hquote hescape h ih =>
    rw [cons_append, quotedBody.eq_5 _ _ hquote (fun hch => absurd hch hescape)
      (fun _ _ hch => absurd hch hescape), ih]
    rfl
  | @escape e ch value body hchar h ih =>
    show quotedBody ('\\' :: e :: (body ++ '"' :: t)) = _
    rw [quotedBody.eq_4]
    simp only [hchar, ih]
    rfl

theorem Quoted.push_eq_closed {q : Quoted} {value : Text} (h : q.push ch = .closed value) :
    ∃ output, q = .closed output ∧ value = ch :: output := by
  cases q with
  | closed output =>
    cases h
    exact ⟨output, rfl, rfl⟩
  | _ => cases h

/-- A string that is closed ends with a quote, behind its characters. -/
theorem escaped_of_quotedBody {s value : Text} {n : ℕ} (h : quotedBody s = (.closed value, n)) :
    ∃ body, Escaped value body ∧ s = body ++ '"' :: s.drop n := by
  induction s using quotedBody.induct generalizing value n with
  | case1 => cases h
  | case2 s =>
    cases h
    exact ⟨[], .nil, rfl⟩
  | case3 => cases h
  | case4 e s hchar =>
    rw [quotedBody.eq_4] at h
    simp only [hchar] at h
    cases h
  | case5 e s ch hchar ih =>
    rw [quotedBody.eq_4] at h
    simp only [hchar, Prod.mk.injEq] at h
    obtain ⟨hpush, rfl⟩ := h
    obtain ⟨output, hclosed, rfl⟩ := Quoted.push_eq_closed hpush
    obtain ⟨body, hbody, hs⟩ := ih (Prod.ext hclosed rfl)
    refine ⟨'\\' :: e :: body, .escape hchar hbody, ?_⟩
    simpa using hs
  | case6 ch s hquote hone hescape ih =>
    rw [quotedBody.eq_5 _ _ hquote hone hescape] at h
    simp only [Prod.mk.injEq] at h
    obtain ⟨hpush, rfl⟩ := h
    obtain ⟨output, hclosed, rfl⟩ := Quoted.push_eq_closed hpush
    obtain ⟨body, hbody, hs⟩ := ih (Prod.ext hclosed rfl)
    refine ⟨ch :: body, .plain hquote ?_ hbody, by simpa using hs⟩
    rintro rfl
    rcases s with _ | ⟨e, s⟩
    · exact hone rfl rfl
    · exact hescape e s rfl rfl

theorem Takes.quotedString (value : Text) (rest : List Token) :
    @Takes source _ quotedString [.quoted value] value rest := by
  intro s hs
  obtain ⟨text, t, hskip, ⟨body, hbody, rfl⟩, -, ht⟩ := hs.uncons
  refine ⟨t, ht, ?_⟩
  rintro c rfl
  have hrem : c.skipWs.remaining = '"' :: (body ++ '"' :: t) := by simp [hskip]
  have hquoted : quotedBody (c.skipWs.advance 1).remaining = (.closed value, body.length + 1) := by
    rw [Cursor.advance_remaining, hrem]
    exact quotedBody_escaped hbody t
  refine ⟨(c.skipWs.advance 1).advance (body.length + 1), ?_, ?_⟩
  · unfold Imbh.Syntax.quotedString
    simp only [hquoted]
    rw [if_pos (by rw [hrem]; rfl)]
  · rw [Cursor.advance_remaining, Cursor.advance_remaining, hrem, drop_one, tail_cons]
    simp

theorem yields_quotedString : @Yields source _ quotedString fun value ts => ts = [.quoted value] := by
  intro c value c' h
  unfold quotedString at h
  dsimp only at h
  split at h
  · rename_i hquote
    obtain ⟨s, hs⟩ := head?_eq_some_iff.mp hquote
    split at h
    · rename_i output hclosed
      cases h
      obtain ⟨body, hbody, heq⟩ := escaped_of_quotedBody (Prod.ext hclosed rfl)
      refine ⟨_, rfl, fun rest hrest => ?_⟩
      rw [Cursor.advance_remaining, hs, drop_one, tail_cons] at heq
      rw [Cursor.advance_remaining, Cursor.advance_remaining, hs, drop_one, tail_cons] at hrest
      have hsplit : skip c.remaining = '"' :: (body ++ ['"']) ++ s.drop (quotedBody s).2 := by
        rw [← Cursor.skipWs_remaining, hs]
        nth_rewrite 1 [heq]
        simp
      exact .behind hsplit ⟨body, hbody, rfl⟩ trivial hrest
    · cases h
    · cases h
    · cases h
  · cases h

theorem number_eq {isPart : Char → Bool} {parse : Text → Option α} {message : Text} {n : α} {c c' : Cursor source}
    (h : number isPart parse message c = .ok (n, c')) :
    ∃ digits, (∀ ch ∈ digits, isPart ch = true) ∧ parse digits = some n ∧
      skip c.remaining = digits ++ c'.remaining := by
  unfold number at h
  dsimp only at h
  split at h
  · rename_i m hparse
    cases h
    refine ⟨_, fun ch hch => mem_takeWhile_imp hch, hparse, ?_⟩
    rw [Cursor.advance_remaining, drop_takeWhile, takeWhile_append_dropWhile, Cursor.skipWs_remaining]
  · cases h

theorem Takes.float {digits : Text} {x : F64} (hparse : parseF64 digits = some x)
    (hnext : ∀ t ∈ rest.head?, ∀ ch, t.Begins ch → isNumberChar ch = false) :
    @Takes source _ float [.number digits] x rest := by
  intro s hs
  obtain ⟨text, t, hskip, ⟨-, hdigits, rfl⟩, -, ht⟩ := hs.uncons
  exact ⟨t, ht, reads_number hskip hdigits (ht.ends (fun _ => isNumberChar_ascii) hnext) hparse⟩

theorem yields_float :
    @Yields source _ float fun x ts => ∃ digits, parseF64 digits = some x ∧ ts = [.number digits] := by
  intro c x c' h
  obtain ⟨digits, hdigits, hparse, hskip⟩ := number_eq h
  refine ⟨_, ⟨digits, hparse, rfl⟩, fun rest hrest => .behind hskip ⟨?_, hdigits, rfl⟩ trivial hrest⟩
  rintro rfl
  have hnone : parseF64 [] = none := by decide
  rw [hnone] at hparse
  cases hparse

end

end Imbh.Syntax
