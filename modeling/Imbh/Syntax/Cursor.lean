import Mathlib.Data.List.DropRight
import Imbh.Lib.ParseFloat

/-!
# The cursor of the query parsers

A parser takes a cursor over the source and gives a value and the cursor behind it, or a diagnostic. A
cursor is what remains of the source, so that it always stands between two characters.
-/

namespace Imbh.Syntax

open Lib List

/-! ## Diagnostics -/

/-- A range of bytes. Source: `mod.rs` `SourceRange` -/
structure SourceRange where
  start : ℕ
  stop : ℕ
  deriving DecidableEq

/-- Source: `mod.rs` `DiagnosticCode` -/
inductive DiagnosticCode
  | syntaxError
  | unsupported
  | needsResolution
  | semanticMismatch
  | limitExceeded
  deriving DecidableEq

/-- Source: `mod.rs` `Diagnostic` -/
structure Diagnostic where
  code : DiagnosticCode
  range : SourceRange
  message : Text
  deriving DecidableEq

/-- The length in bytes. -/
def byteLen (s : Text) : ℕ := (s.map Char.utf8Size).sum

/-! ## The cursor -/

/-- The position in the source is the one where the rest begins. Source: `parser.rs` `Cursor` -/
structure Cursor (source : Text) where
  remaining : Text
  suffix : remaining <:+ source

namespace Cursor

variable {source : Text}

def new (source : Text) : Cursor source := ⟨source, suffix_refl source⟩

def position (c : Cursor source) : ℕ := byteLen source - byteLen c.remaining

/-- The cursor some characters further. -/
def advance (c : Cursor source) (n : ℕ) : Cursor source :=
  ⟨c.remaining.drop n, (drop_suffix n c.remaining).trans c.suffix⟩

def skipWs (c : Cursor source) : Cursor source :=
  c.advance (c.remaining.takeWhile isWhitespace).length

/-- Source: `parser.rs` `Cursor::error` -/
def error (c : Cursor source) (code : DiagnosticCode) (message : Text) : Diagnostic :=
  ⟨code, ⟨c.position, min (byteLen source) (c.position + 1)⟩, message⟩

end Cursor

/-- A parser of the source. -/
abbrev Parse (source : Text) (α : Type) : Type := StateT (Cursor source) (Except Diagnostic) α

section

variable {source : Text} {α β : Type}

/-- The error at the cursor. -/
def failHere (code : DiagnosticCode) (message : Text) : Parse source α :=
  fun c => .error (c.error code message)

/-- An error at a range of its own. -/
def failAt (code : DiagnosticCode) (range : SourceRange) (message : Text) : Parse source α :=
  fun _ => .error ⟨code, range, message⟩

def skipWs : Parse source Unit := fun c => .ok ((), c.skipWs)

/-- The next character. -/
def peek : Parse source (Option Char) := fun c => .ok (c.remaining.head?, c)

/-- Source: `parser.rs` `Cursor::consume` -/
def consume (token : Text) : Parse source Bool := fun c =>
  let c := c.skipWs
  if token.isPrefixOf c.remaining then .ok (true, c.advance token.length) else .ok (false, c)

/-- What a parser finds, while the cursor stays where it is. -/
def probe (p : Parse source α) : Parse source α := fun c => (p c).map fun (a, _) => (a, c)

/-- What stands for the first token that is there. -/
def consumeFirst : List (Text × α) → Parse source (Option α)
  | [] => return none
  | (token, a) :: tokens => do
      if ← consume token then return some a else consumeFirst tokens

/-- A character of a name. Source: `parser.rs` `Cursor::identifier` -/
def isWordChar (c : Char) : Bool := c.isAlphanum || c = '_' || c = ':' || c = '.' || c = '-'

/-- Source: `parser.rs` `Cursor::consume_keyword` -/
def consumeKeyword (keyword : Text) : Parse source Bool := fun c =>
  let c := c.skipWs
  if keyword.isPrefixOf c.remaining ∧ (c.remaining.drop keyword.length).head?.all (!isWordChar ·) then
    .ok (true, c.advance keyword.length)
  else .ok (false, c)

/-- The text `{text:?}` of a name or a token, which has nothing to escape. -/
def debugText (s : Text) : Text := '"' :: s ++ ['"']

/-- Source: `parser.rs` `Cursor::expect` -/
def expect (token : Text) : Parse source Unit := do
  if ← consume token then return ()
  else failHere .syntaxError ("expected ".toList ++ debugText token)

/-- Source: `parser.rs` `Cursor::identifier` -/
def identifier : Parse source (Text × SourceRange) := fun c =>
  let c := c.skipWs
  let word := c.remaining.takeWhile isWordChar
  if word = [] then .error (c.error .syntaxError "expected identifier".toList)
  else
    let c' := c.advance word.length
    .ok ((word, ⟨c.position, c'.position⟩), c')

/-! ## Literals -/

/-- How the characters behind a quote end. -/
inductive Quoted
  | closed (output : Text)
  | unterminated
  | unterminatedEscape
  | unsupportedEscape
  deriving DecidableEq

def Quoted.push (ch : Char) : Quoted → Quoted
  | .closed output => .closed (ch :: output)
  | q => q

/-- The character of an escape. -/
def escapeChar : Char → Option Char
  | '"' => some '"'
  | '\\' => some '\\'
  | 'n' => some '\n'
  | 'r' => some '\r'
  | 't' => some '\t'
  | _ => none

/-- The characters behind a quote, and how many of them are read.
Source: `parser.rs` `Cursor::quoted_string`, the loop -/
def quotedBody : Text → Quoted × ℕ
  | [] => (.unterminated, 0)
  | '"' :: _ => (.closed [], 1)
  | ['\\'] => (.unterminatedEscape, 1)
  | '\\' :: e :: s =>
      match escapeChar e with
      | none => (.unsupportedEscape, 2)
      | some ch => ((quotedBody s).1.push ch, (quotedBody s).2 + 2)
  | ch :: s => ((quotedBody s).1.push ch, (quotedBody s).2 + 1)

/-- Source: `parser.rs` `Cursor::quoted_string` -/
def quotedString : Parse source Text := fun c =>
  let c := c.skipWs
  if c.remaining.head? = some '"' then
    let (quoted, n) := quotedBody (c.advance 1).remaining
    let c' := (c.advance 1).advance n
    match quoted with
    | .closed output => .ok (output, c')
    | .unterminated => .error ⟨.syntaxError, ⟨c.position, c'.position⟩, "unterminated quoted string".toList⟩
    | .unterminatedEscape => .error (c'.error .syntaxError "unterminated escape".toList)
    | .unsupportedEscape =>
        .error (c'.error .unsupported
          "this string escape is outside the compatibility profile".toList)
  else .error (c.error .syntaxError "expected quoted string".toList)

/-- A number of the characters that satisfy the predicate; it is at fault from its start up to its end, or
by one byte if it is empty. -/
def number (isPart : Char → Bool) (parse : Text → Option α) (message : Text) : Parse source α := fun c =>
  let c := c.skipWs
  let digits := c.remaining.takeWhile isPart
  let c' := c.advance digits.length
  match parse digits with
  | some n => .ok (n, c')
  | none => .error ⟨.syntaxError, ⟨c.position, max c'.position (c.position + 1)⟩, message⟩

/-- Source: `parser.rs` `Cursor::unsigned` -/
def unsigned : Parse source ℕ :=
  number Char.isDigit (fun s => (parseU64 s).map UInt64.toNat) "expected unsigned integer".toList

/-- A character of a decimal number. -/
def isNumberChar (c : Char) : Bool := c.isDigit || c = '.' || c = '-' || c = '+' || c = 'e' || c = 'E'

/-- Source: `parser.rs` `Cursor::float` -/
def float : Parse source F64 := number isNumberChar parseF64 "expected number".toList

/-- Source: `parser.rs` `Cursor::finish` -/
def finish : Parse source Unit := fun c =>
  let c := c.skipWs
  if c.remaining = [] then .ok ((), c)
  else .error (c.error .unsupported "unsupported trailing query construct".toList)

/-! ## Loops -/

/-- A loop with at most `rounds` rounds. -/
def loopFrom (body : α → Parse source (α ⊕ β)) : ℕ → α → Parse source β
  | 0, _ => failHere .limitExceeded []
  | rounds + 1, a => do
      match ← body a with
      | .inl a => loopFrom body rounds a
      | .inr b => return b

/-- A loop whose body gives the next state or the result. Where each round but the last reads a character,
there are no more rounds than characters. -/
def loop (body : α → Parse source (α ⊕ β)) (a : α) : Parse source β := fun c =>
  loopFrom body (c.remaining.length + 1) a c

/-! ## Lists -/

/-- One item behind those before it, up to the closing token or a comma. -/
def listRound (close : Text) (item : Parse source α) (items : List α) : Parse source (List α ⊕ List α) := do
  let a ← item
  if ← consume close then return .inr (items ++ [a])
  else
    expect ",".toList
    return .inl (items ++ [a])

/-- Items with commas between them, perhaps none, up to the closing token. -/
def commaList (close : Text) (item : Parse source α) : Parse source (List α) := do
  if ← consume close then return [] else loop (listRound close item) []

/-! ## Durations -/

/-- The units of a duration, in the order in which they are tried. -/
def durationUnits : List (Text × ℕ) :=
  [ ("ns".toList, 1),
    ("us".toList, 1000),
    ("µs".toList, 1000),
    ("ms".toList, 1000000),
    ("s".toList, 1000000000),
    ("m".toList, 60000000000),
    ("h".toList, 3600000000000),
    ("d".toList, 86400000000000) ]

/-- The position of the cursor. -/
def here : Parse source ℕ := fun c => .ok (c.position, c)

/-- An error from a start up to the cursor. -/
def failSince (start : ℕ) (code : DiagnosticCode) (message : Text) : Parse source α := fun c =>
  .error ⟨code, ⟨start, c.position⟩, message⟩

/-- One component, added to the total of those before it.
Source: `parser.rs` `Cursor::duration_ns`, the loop body -/
def durationComponent (start : ℕ) (state : ℕ × ℕ) : Parse source ((ℕ × ℕ) ⊕ (ℕ × ℕ)) := do
  if (← peek).any Char.isDigit then
    let value ← unsigned
    match ← consumeFirst durationUnits with
    | none =>
        failSince start .syntaxError "expected duration unit ns, us, µs, ms, s, m, h, or d".toList
    | some multiplier =>
        if 2 ^ 64 ≤ value * multiplier ∨ 2 ^ 64 ≤ state.1 + value * multiplier then
          failSince start .limitExceeded "duration overflows nanoseconds".toList
        else return .inl (state.1 + value * multiplier, state.2 + 1)
  else return .inr state

/-- Source: `parser.rs` `Cursor::duration_ns` -/
def durationNs : Parse source ℕ := do
  skipWs
  let start ← here
  let (total, components) ← loop (durationComponent start) (0, 0)
  if components = 0 then
    failAt .syntaxError ⟨start, max (← here) (start + 1)⟩ "expected duration".toList
  else return total

end

section

variable {source : Text} {α β : Type} {p : Parse source α} {f : α → Parse source β} {c : Cursor source}

theorem run_bind_ok {b : β} {c'' : Cursor source} :
    (p >>= f) c = .ok (b, c'') ↔ ∃ a c', p c = .ok (a, c') ∧ f a c' = .ok (b, c'') := by
  rcases h : p c with d | ⟨a, c'⟩
  · simp [bind, StateT.bind, Except.bind, h]
  · simp [bind, StateT.bind, Except.bind, h]

theorem run_bind_error {d : Diagnostic} :
    (p >>= f) c = .error d ↔ p c = .error d ∨ ∃ a c', p c = .ok (a, c') ∧ f a c' = .error d := by
  rcases h : p c with d | ⟨a, c'⟩
  · simp [bind, StateT.bind, Except.bind, h]
  · simp [bind, StateT.bind, Except.bind, h]

theorem run_pure_ok {a b : α} {c c' : Cursor source} :
    (pure a : Parse source α) c = .ok (b, c') ↔ b = a ∧ c' = c := by
  show (Except.ok (a, c) : Except Diagnostic (α × Cursor source)) = .ok (b, c') ↔ _
  simp [eq_comm]

/-! ## Loops as the source writes them -/

/-- Each round but the last reads a character. -/
def Progress (body : α → Parse source (α ⊕ β)) : Prop :=
  ∀ a c a' c', body a c = .ok (.inl a', c') → c'.remaining.length < c.remaining.length

/-- Rounds that are not used do not matter. -/
theorem loopFrom_congr {body : α → Parse source (α ⊕ β)} (h : Progress body) {n m : ℕ} {a : α}
    {c : Cursor source} (hn : c.remaining.length < n) (hm : c.remaining.length < m) :
    loopFrom body n a c = loopFrom body m a c := by
  induction n generalizing m a c with
  | zero => exact absurd hn (Nat.not_lt_zero _)
  | succ n ih =>
    obtain ⟨m, rfl⟩ := Nat.exists_eq_succ_of_ne_zero (Nat.ne_of_gt (Nat.zero_lt_of_lt hm))
    unfold loopFrom
    rcases hbody : body a c with d | ⟨a' | b, c'⟩
    · simp [bind, StateT.bind, Except.bind, hbody]
    · have hlt := h a c a' c' hbody
      simp only [bind, StateT.bind, Except.bind, hbody]
      exact ih (by omega) (by omega)
    · simp [bind, StateT.bind, Except.bind, hbody]

/-- A loop whose every round reads a character unfolds as the source writes it. -/
theorem loop_eq {body : α → Parse source (α ⊕ β)} (h : Progress body) (a : α) :
    loop body a = do
      match ← body a with
      | .inl a => loop body a
      | .inr b => return b := by
  funext c
  unfold loop
  rw [loopFrom]
  rcases hbody : body a c with d | ⟨a' | b, c'⟩
  · simp [bind, StateT.bind, Except.bind, hbody]
  · have hlt := h a c a' c' hbody
    simp only [bind, StateT.bind, Except.bind, hbody]
    exact loopFrom_congr h hlt (Nat.lt_succ_self _)
  · simp [bind, StateT.bind, Except.bind, hbody]

end

/-! ## Characters -/

variable {ch : Char}

theorem not_isWhitespace_of_ascii (h : 33 ≤ ch.toNat ∧ ch.toNat ≤ 126) : isWhitespace ch = false := by
  unfold isWhitespace
  simp
  omega

theorem isDigit_ascii (h : ch.isDigit = true) : 33 ≤ ch.toNat ∧ ch.toNat ≤ 126 := by
  have hrange : 48 ≤ ch.toNat ∧ ch.toNat ≤ 57 := Char.isDigit_iff_toNat.mp h
  omega

theorem isWordChar_ascii (h : isWordChar ch = true) : 33 ≤ ch.toNat ∧ ch.toNat ≤ 126 := by
  simp only [isWordChar, Bool.or_eq_true, decide_eq_true_eq] at h
  rcases h with (((h | rfl) | rfl) | rfl) | rfl
  · have hrange := isAlphanum_range h
    omega
  all_goals decide

theorem isNumberChar_ascii (h : isNumberChar ch = true) : 33 ≤ ch.toNat ∧ ch.toNat ≤ 126 := by
  simp only [isNumberChar, Bool.or_eq_true, decide_eq_true_eq] at h
  rcases h with ((((h | rfl) | rfl) | rfl) | rfl) | rfl
  · exact isDigit_ascii h
  all_goals decide

/-! ## Texts -/

/-- A text without the whitespace at its start. -/
def skip (s : Text) : Text := s.dropWhile isWhitespace

theorem skip_append {ws s : Text} (h : ∀ c ∈ ws, isWhitespace c = true) : skip (ws ++ s) = skip s :=
  dropWhile_append_of_pos h

theorem skip_cons {s : Text} (h : isWhitespace ch = false) : skip (ch :: s) = ch :: s := by
  rw [skip, dropWhile_cons_of_neg (by simp [h])]

@[simp] theorem skip_nil : skip [] = [] := rfl

@[simp] theorem skip_skip (s : Text) : skip (skip s) = skip s := dropWhile_idempotent _ _

theorem drop_takeWhile (isPart : Char → Bool) (s : Text) :
    s.drop (s.takeWhile isPart).length = s.dropWhile isPart := by
  induction s with
  | nil => rfl
  | cons ch s ih =>
    rw [takeWhile_cons, dropWhile_cons]
    split
    · exact ih
    · rfl

section

variable {source : Text} {c : Cursor source}

@[simp] theorem Cursor.advance_remaining (c : Cursor source) (n : ℕ) :
    (c.advance n).remaining = c.remaining.drop n := rfl

@[simp] theorem Cursor.skipWs_remaining (c : Cursor source) : c.skipWs.remaining = skip c.remaining :=
  drop_takeWhile isWhitespace c.remaining

end

section

variable {source : Text} {α β : Type}

/-- The parser reads a text up to another, with a value. -/
def Reads (p : Parse source α) (s : Text) (a : α) (t : Text) : Prop :=
  ∀ c : Cursor source, c.remaining = s → ∃ c', p c = .ok (a, c') ∧ c'.remaining = t

/-- The parser has an error at a text. -/
def Rejects (p : Parse source α) (s : Text) : Prop :=
  ∀ c : Cursor source, c.remaining = s → ∃ d, p c = .error d

variable {p : Parse source α} {f : α → Parse source β} {s t u : Text} {a : α} {b : β} {isPart : Char → Bool}
  {token : Text}

theorem Reads.pure (a : α) (s : Text) : @Reads source _ (Pure.pure a) s a s :=
  fun c hc => ⟨c, rfl, hc⟩

theorem Reads.bind (hp : Reads p s a t) (hf : Reads (f a) t b u) : Reads (p >>= f) s b u := by
  intro c hc
  obtain ⟨c', hc', ht⟩ := hp c hc
  obtain ⟨c'', hc'', hu⟩ := hf c' ht
  exact ⟨c'', run_bind_ok.mpr ⟨a, c', hc', hc''⟩, hu⟩

theorem Rejects.bind (hp : Rejects p s) : Rejects (p >>= f) s := by
  intro c hc
  obtain ⟨d, hd⟩ := hp c hc
  exact ⟨d, run_bind_error.mpr (.inl hd)⟩

theorem Reads.bind_rejects (hp : Reads p s a t) (hf : Rejects (f a) t) : Rejects (p >>= f) s := by
  intro c hc
  obtain ⟨c', hc', ht⟩ := hp c hc
  obtain ⟨d, hd⟩ := hf c' ht
  exact ⟨d, run_bind_error.mpr (.inr ⟨a, c', hc', hd⟩)⟩

theorem rejects_failHere (code : DiagnosticCode) (message : Text) :
    @Rejects source _ (failHere code message : Parse source α) s := fun _ _ => ⟨_, rfl⟩

/-! ### Tokens -/

theorem reads_skipWs (s : Text) : @Reads source _ skipWs s () (skip s) := by
  rintro c rfl
  exact ⟨c.skipWs, rfl, by simp⟩

theorem reads_peek (s : Text) : @Reads source _ peek s s.head? s := by
  rintro c rfl
  exact ⟨c, rfl, rfl⟩

/-- A token that is there is read. -/
theorem reads_consume (h : skip s = token ++ t) : @Reads source _ (consume token) s true t := by
  rintro c rfl
  have hprefix : token.isPrefixOf c.skipWs.remaining = true := by
    rw [Cursor.skipWs_remaining, h]
    exact isPrefixOf_iff_prefix.mpr (prefix_append _ _)
  refine ⟨c.skipWs.advance token.length, ?_, ?_⟩
  · unfold consume
    dsimp only
    rw [if_pos hprefix]
  · rw [Cursor.advance_remaining, Cursor.skipWs_remaining, h, drop_left]

/-- Before a token that is not there the whitespace is read. -/
theorem reads_consume_not (h : token.isPrefixOf (skip s) = false) :
    @Reads source _ (consume token) s false (skip s) := by
  rintro c rfl
  refine ⟨c.skipWs, ?_, by simp⟩
  unfold consume
  dsimp only
  rw [Cursor.skipWs_remaining, h, if_neg Bool.false_ne_true]

/-- The branch of a token that is there. -/
theorem reads_if {q r : Parse source β} (h : skip s = token ++ t) (hq : Reads q t b u) :
    Reads (consume token >>= fun found => if found = true then q else r) s b u :=
  (reads_consume h).bind hq

/-- The branch of a token that is not there. -/
theorem reads_else {q r : Parse source β} (h : token.isPrefixOf (skip s) = false) (hr : Reads r (skip s) b u) :
    Reads (consume token >>= fun found => if found = true then q else r) s b u :=
  (reads_consume_not h).bind hr

/-- The first token that the text begins with is read. -/
theorem reads_consumeFirst {tokens : List (Text × α)}
    (hfind : (tokens.find? fun kv => kv.1.isPrefixOf (skip s)) = some (token, a)) (h : skip s = token ++ t) :
    @Reads source _ (consumeFirst tokens) s (some a) t := by
  induction tokens generalizing s with
  | nil => exact absurd hfind (by simp)
  | cons kv tokens ih =>
    unfold consumeFirst
    by_cases hkv : kv.1.isPrefixOf (skip s) = true
    · simp only [find?_cons, hkv] at hfind
      cases hfind
      exact reads_if h (Reads.pure _ _)
    · simp only [find?_cons, hkv] at hfind
      refine reads_else (Bool.eq_false_of_not_eq_true hkv) (ih ?_ ?_)
      · simpa using hfind
      · simpa using h

/-- Of tokens none of which begins a later one, the longest that is there is found. -/
theorem find?_longest {tokens : List (Text × α)} (hpairwise : tokens.Pairwise fun a b => ¬ a.1 <+: b.1)
    {kv : Text × α} (hmem : kv ∈ tokens)
    (hlongest : ∀ a ∈ tokens, a.1 <+: kv.1 ++ t → a.1.length ≤ kv.1.length) :
    (tokens.find? fun a => a.1.isPrefixOf (kv.1 ++ t)) = some kv := by
  obtain ⟨front, back, rfl⟩ := append_of_mem hmem
  have hfront : ∀ a ∈ front, ¬ a.1 <+: kv.1 := fun a ha =>
    (pairwise_append.mp hpairwise).2.2 a ha kv mem_cons_self
  rw [find?_eq_some_iff_append]
  refine ⟨by simp, front, back, rfl, fun a ha => ?_⟩
  rw [Bool.not_eq_true', ← Bool.not_eq_true, isPrefixOf_iff_prefix]
  intro hprefix
  have hle := hlongest a (mem_append_left _ ha) hprefix
  exact hfront a ha (prefix_of_prefix_length_le hprefix (prefix_append _ _) hle)

theorem reads_consumeFirst_none {tokens : List (Text × α)} (hne : tokens ≠ [])
    (h : ∀ kv ∈ tokens, kv.1.isPrefixOf (skip s) = false) :
    @Reads source _ (consumeFirst tokens) s none (skip s) := by
  induction tokens generalizing s with
  | nil => exact absurd rfl hne
  | cons kv tokens ih =>
    obtain ⟨hkv, htokens⟩ := forall_mem_cons.mp h
    unfold consumeFirst
    refine reads_else hkv ?_
    by_cases hnil : tokens = []
    · rw [hnil]
      exact Reads.pure _ _
    · have hrest := ih (s := skip s) hnil (by simpa using htokens)
      rwa [skip_skip] at hrest

theorem reads_expect (h : skip s = token ++ t) : @Reads source _ (expect token) s () t :=
  (reads_consume h).bind (Reads.pure () t)

theorem rejects_expect (h : token.isPrefixOf (skip s) = false) : @Rejects source _ (expect token) s :=
  (reads_consume_not h).bind_rejects (rejects_failHere _ _)

theorem reads_finish (h : skip s = []) : @Reads source _ finish s () [] := by
  rintro c rfl
  refine ⟨c.skipWs, ?_, by simpa using h⟩
  unfold finish
  dsimp only
  rw [if_pos (by simpa using h)]

theorem rejects_finish (h : skip s ≠ []) : @Rejects source _ finish s := by
  rintro c rfl
  unfold finish
  dsimp only
  rw [if_neg (by simpa using h)]
  exact ⟨_, rfl⟩

/-! ### Words and numbers -/

/-- A word ends where the text goes on with another kind of character. -/
def Ends (isPart : Char → Bool) (t : Text) : Prop := ∀ ch ∈ t.head?, isPart ch = false

theorem Ends.cons (h : isPart ch = false) (t : Text) : Ends isPart (ch :: t) := by
  rintro _ ⟨⟩
  exact h

theorem Ends.append {front : Text} (hfront : ∀ ch ∈ front, isPart ch = false) (ht : Ends isPart t) :
    Ends isPart (front ++ t) := by
  rcases front with _ | ⟨ch, front⟩
  · exact ht
  · exact Ends.cons (hfront ch mem_cons_self) _

/-- Whitespace is part of no word and of no number. -/
theorem Ends.append_blank (hpart : ∀ ch, isPart ch = true → 33 ≤ ch.toNat ∧ ch.toNat ≤ 126) {blank : Text}
    (hblank : ∀ ch ∈ blank, isWhitespace ch = true) (ht : Ends isPart t) : Ends isPart (blank ++ t) := by
  refine Ends.append (fun ch hch => ?_) ht
  by_contra h
  have hspace := hblank ch hch
  rw [not_isWhitespace_of_ascii (hpart ch (Bool.eq_true_of_not_eq_false h))] at hspace
  exact absurd hspace (by simp)

theorem takeWhile_word {word : Text} (hword : ∀ ch ∈ word, isPart ch = true) (hend : Ends isPart t) :
    (word ++ t).takeWhile isPart = word := by
  rw [takeWhile_append_of_pos hword]
  rcases t with _ | ⟨ch, t⟩
  · simp
  · rw [takeWhile_cons_of_neg (by simpa using hend ch rfl), append_nil]

/-- The range of bytes between two texts that remain. -/
def rangeBetween (source s t : Text) : SourceRange :=
  ⟨byteLen source - byteLen s, byteLen source - byteLen t⟩

theorem reads_identifier {word : Text} (h : skip s = word ++ t) (hne : word ≠ [])
    (hword : ∀ ch ∈ word, isWordChar ch = true) (hend : Ends isWordChar t) :
    @Reads source _ identifier s (word, rangeBetween source (word ++ t) t) t := by
  rintro c rfl
  have hrem : c.skipWs.remaining = word ++ t := by simp [h]
  have htake : c.skipWs.remaining.takeWhile isWordChar = word := by rw [hrem, takeWhile_word hword hend]
  have hrest : (c.skipWs.advance word.length).remaining = t := by simp [h]
  refine ⟨c.skipWs.advance word.length, ?_, hrest⟩
  unfold identifier
  dsimp only
  rw [htake, if_neg hne, Cursor.position, Cursor.position, hrest, hrem]
  rfl

theorem rejects_identifier (h : Ends isWordChar (skip s)) : @Rejects source _ identifier s := by
  rintro c rfl
  have htake : c.skipWs.remaining.takeWhile isWordChar = [] := by
    rw [Cursor.skipWs_remaining, ← nil_append (skip c.remaining)]
    exact takeWhile_word (by simp) h
  unfold identifier
  dsimp only
  rw [htake, if_pos rfl]
  exact ⟨_, rfl⟩

theorem reads_number {parse : Text → Option α} {message digits : Text} {n : α} (h : skip s = digits ++ t)
    (hdigits : ∀ ch ∈ digits, isPart ch = true) (hend : Ends isPart t) (hparse : parse digits = some n) :
    @Reads source _ (number isPart parse message) s n t := by
  rintro c rfl
  have hrem : c.skipWs.remaining = digits ++ t := by simp [h]
  have htake : c.skipWs.remaining.takeWhile isPart = digits := by rw [hrem, takeWhile_word hdigits hend]
  refine ⟨c.skipWs.advance digits.length, ?_, by simp [h]⟩
  unfold number
  simp only [htake, hparse]

/-! ### Rounds of a loop -/

variable {body : α → Parse source (α ⊕ β)}

theorem reads_loopFrom_stop (n : ℕ) (h : Reads (body a) s (.inr b) t) :
    Reads (loopFrom body (n + 1) a) s b t := h.bind (Reads.pure b t)

theorem reads_loopFrom_step {a' : α} {n : ℕ} (h : Reads (body a) s (.inl a') t)
    (hloop : Reads (loopFrom body n a') t b u) : Reads (loopFrom body (n + 1) a) s b u := h.bind hloop

/-- A loop has a round for each character and one more. -/
theorem reads_loop (h : Reads (loopFrom body (s.length + 1) a) s b t) : Reads (loop body a) s b t := by
  rintro c rfl
  exact h c rfl

theorem rejects_loop (h : Rejects (loopFrom body (s.length + 1) a) s) : Rejects (loop body a) s := by
  rintro c rfl
  exact h c rfl

theorem reads_loop_stop (h : Reads (body a) s (.inr b) t) :
    Reads (loop body a) s b t := reads_loop (reads_loopFrom_stop _ h)

theorem reads_loop_step {a' : α} (hprogress : Progress body) (h : Reads (body a) s (.inl a') t)
    (hloop : Reads (loop body a') t b u) : Reads (loop body a) s b u := by
  rw [loop_eq hprogress]
  exact h.bind hloop

end

end Imbh.Syntax
