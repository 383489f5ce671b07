import Imbh.Lib.Numerals
import Imbh.Syntax.Tokens

/-!
# Durations, lists and label matchers

What consists of several tokens, or of a token with parts: the components of a duration, items with commas
between them, the name, the operator and the string of a matcher. A source is read to its end.
-/

namespace Imbh.Syntax

open Lib Lgtm List Option

section

variable {source : Text} {α β : Type} {p : Parse source α} {f : α → Parse source β} {ts us rest : List Token} {a : α}
  {b : β}

/-! ## Durations -/

theorem parseU64_digits {s : Text} (hne : s ≠ []) (hs : ∀ ch ∈ s, ch.isDigit = true) {n : ℕ} :
    (parseU64 s).map UInt64.toNat = some n ↔ n = Nat.ofDigitChars 10 s 0 ∧ n < 2 ^ 64 := by
  have hsign : ∀ ch ∈ s, ch ≠ '+' := fun ch hch => (ne_of_isDigit (hs ch hch)).1
  unfold parseU64
  split
  · exact absurd rfl (hsign '+' mem_cons_self)
  · simp only [parseDigits_eq hne hs, bind_some]
    split
    · rename_i hlt
      rw [map_some, UInt64.toNat_ofNat_of_lt' hlt, some.injEq]
      constructor
      · rintro rfl
        exact ⟨rfl, hlt⟩
      · rintro ⟨rfl, -⟩
        rfl
    · rename_i hge
      simp only [map_none, reduceCtorEq, false_iff, not_and]
      rintro rfl
      exact hge

variable {tokens : List (Text × α)}

/-- Where a longer token is a shorter one and one character, the token is found unless that comes next. -/
theorem find?_unless {x : Char} (hpairwise : tokens.Pairwise fun a b => ¬ a.1 <+: b.1)
    (hlonger : ∀ a ∈ tokens, ∀ b ∈ tokens, b.1.length < a.1.length → b.1 <+: a.1 → a.1 = b.1 ++ [x]) {kv : Text × α}
    (hmem : kv ∈ tokens) {t : Text} (ht : t.head? ≠ some x) :
    (tokens.find? fun a => a.1.isPrefixOf (kv.1 ++ t)) = some kv := by
  refine find?_longest hpairwise hmem fun a ha hprefix => ?_
  by_contra hlt
  have hle : kv.1.length ≤ a.1.length := by omega
  have hbegins := prefix_of_prefix_length_le (prefix_append kv.1 t) hprefix hle
  rw [hlonger a ha kv hmem (by omega) hbegins, prefix_append_right_inj] at hprefix
  obtain ⟨rest, rfl⟩ := hprefix
  exact ht rfl

/-- The one unit that begins another is `m`. -/
theorem find?_unit {unit : Text × ℕ} (h : unit ∈ durationUnits) {t : Text} (ht : t.head? ≠ some 's') :
    (durationUnits.find? fun kv => kv.1.isPrefixOf (unit.1 ++ t)) = some unit :=
  find?_unless (by decide) (by decide) h ht

theorem consumeFirst_eq {a : α} {c c' : Cursor source} (h : consumeFirst tokens c = .ok (some a, c')) :
    ∃ token, (token, a) ∈ tokens ∧ skip c.remaining = token ++ c'.remaining := by
  induction tokens generalizing c with
  | nil => cases h
  | cons kv tokens ih =>
    obtain ⟨found, c₁, hfound, h⟩ := run_bind_ok.mp h
    have heq := consume_eq hfound
    cases found with
    | true =>
      obtain ⟨ha, rfl⟩ := run_pure_ok.mp h
      cases ha
      exact ⟨kv.1, mem_cons_self, heq⟩
    | false =>
      obtain ⟨token, hmem, hskip⟩ := ih h
      refine ⟨token, mem_cons_of_mem _ hmem, ?_⟩
      rw [← hskip, show c₁.remaining = skip c.remaining from heq, skip_skip]

theorem consumeFirst_none {c c' : Cursor source} (h : consumeFirst tokens c = .ok (none, c')) :
    skip c'.remaining = skip c.remaining := by
  induction tokens generalizing c with
  | nil =>
    obtain ⟨-, rfl⟩ := run_pure_ok.mp h
    rfl
  | cons kv tokens ih =>
    obtain ⟨found, c₁, hfound, h⟩ := run_bind_ok.mp h
    have heq := consume_eq hfound
    cases found with
    | true =>
      obtain ⟨ha, -⟩ := run_pure_ok.mp h
      cases ha
    | false => rw [ih h, show c₁.remaining = skip c.remaining from heq, skip_skip]

theorem unit_begins {unit : Text × ℕ} (h : unit ∈ durationUnits) :
    ∃ ch rest, unit.1 = ch :: rest ∧ ch.isDigit = false ∧ isWhitespace ch = false := by
  have hall : ∀ unit ∈ durationUnits,
      unit.1.head?.any (fun ch => !ch.isDigit && !isWhitespace ch) = true := by decide
  have hhead := hall unit h
  rcases hunit : unit.1 with _ | ⟨ch, rest⟩
  · simp [hunit] at hhead
  · exact ⟨ch, rest, rfl, by simpa [hunit] using hhead⟩

/-- One component is read, and the total grows by it. -/
theorem reads_component (start : ℕ) (c : Component) {total k : ℕ} {t : Text} (ht : t.head? ≠ some 's')
    (hfits : total + c.nanos < 2 ^ 64) :
    @Reads source _ (durationComponent start (total, k)) (c.text ++ t) (.inl (total + c.nanos, k + 1)) t := by
  obtain ⟨ch, digits, hdigits⟩ := exists_cons_of_ne_nil c.digits_ne
  have hch : ch.isDigit = true := c.isDigit ch (by simp [hdigits])
  obtain ⟨x, u, hunit, hx, hspace⟩ := unit_begins c.unit_mem
  have hpos : 0 < c.unit.2 := by
    have hall : ∀ unit ∈ durationUnits, 0 < unit.2 := by decide
    exact hall c.unit c.unit_mem
  have hvalue : Nat.ofDigitChars 10 c.digits 0 < 2 ^ 64 := by
    have hle := Nat.le_mul_of_pos_right (Nat.ofDigitChars 10 c.digits 0) hpos
    unfold Component.nanos at hfits
    omega
  have hnooverflow : ¬ (2 ^ 64 ≤ Nat.ofDigitChars 10 c.digits 0 * c.unit.2 ∨
      2 ^ 64 ≤ total + Nat.ofDigitChars 10 c.digits 0 * c.unit.2) := by
    unfold Component.nanos at hfits
    omega
  have hparse := (parseU64_digits c.digits_ne c.isDigit).mpr ⟨rfl, hvalue⟩
  have hskip : skip (c.text ++ t) = c.digits ++ (c.blank ++ (c.unit.1 ++ t)) := by
    simp [Component.text, hdigits, skip_cons (not_isWhitespace_of_isDigit hch)]
  have hbehind : skip (c.blank ++ (c.unit.1 ++ t)) = c.unit.1 ++ t := by
    rw [skip_append c.isBlank, hunit, cons_append, skip_cons hspace]
  have hend : Ends Char.isDigit (c.blank ++ (c.unit.1 ++ t)) := by
    refine Ends.append_blank (fun _ => isDigit_ascii) c.isBlank ?_
    rw [hunit]
    exact Ends.cons hx _
  unfold durationComponent
  refine (reads_peek _).bind ?_
  rw [if_pos (by simp [Component.text, hdigits, hch])]
  refine (reads_number hskip c.isDigit hend hparse).bind ?_
  refine (reads_consumeFirst (hbehind.symm ▸ find?_unit c.unit_mem ht) hbehind).bind ?_
  dsimp only
  rw [if_neg hnooverflow]
  exact Reads.pure _ _

/-- The components up to the end of a duration. -/
theorem reads_components (start : ℕ) {t : Text} (ht : Ends isWordChar t) (components : List Component) {total k : ℕ}
    (hfits : total + (components.map Component.nanos).sum < 2 ^ 64) :
    @Reads source _ (loop (durationComponent start) (total, k)) (components.flatMap Component.text ++ t)
      (total + (components.map Component.nanos).sum, k + components.length) t := by
  induction components generalizing total k with
  | nil =>
    refine reads_loop_stop ?_
    unfold durationComponent
    refine (reads_peek _).bind ?_
    have hstop : ¬ ([].flatMap Component.text ++ t).head?.any Char.isDigit = true := by
      rcases t with _ | ⟨ch, t⟩
      · simp
      · have hch := ht ch rfl
        simp only [isWordChar, Char.isAlphanum, Bool.or_eq_false_iff] at hch
        simp [hch]
    rw [if_neg hstop]
    exact Reads.pure _ _
  | cons c components ih =>
    rw [map_cons, sum_cons, ← Nat.add_assoc] at hfits
    rw [flatMap_cons, append_assoc, map_cons, sum_cons, ← Nat.add_assoc, length_cons,
      Nat.add_comm components.length, ← Nat.add_assoc]
    refine reads_loop_step (progress_durationComponent start) (reads_component start c ?_ (by omega)) (ih hfits)
    -- a digit comes next, or the end
    rcases components with _ | ⟨c', components⟩
    · rintro hs
      have hword := ht 's' (by simpa using hs)
      exact absurd hword (by decide)
    · obtain ⟨ch, digits, hdigits⟩ := exists_cons_of_ne_nil c'.digits_ne
      have hch : ch.isDigit = true := c'.isDigit ch (by simp [hdigits])
      rw [flatMap_cons, Component.text, hdigits]
      rintro ⟨⟩
      exact absurd hch (by decide)

theorem reads_here (s : Text) : @Reads source _ here s (byteLen source - byteLen s) s := by
  rintro c rfl
  exact ⟨c, rfl, rfl⟩

theorem Takes.durationNs (ns : ℕ) (hnext : ∀ t ∈ rest.head?, ∀ ch, t.Begins ch → isWordChar ch = false) :
    @Takes source _ durationNs [.duration ns] ns rest := by
  intro s hs
  obtain ⟨text, t, hskip, ⟨hlt, ⟨components, hne, hsum, rfl⟩⟩, -, ht⟩ := hs.uncons
  have hend : Ends isWordChar t := ht.ends (fun _ => isWordChar_ascii) hnext
  refine ⟨t, ht, (reads_skipWs s).bind ?_⟩
  rw [hskip]
  refine (reads_here _).bind ((reads_components _ hend components (by omega)).bind ?_)
  have hlen : ¬ (0 + components.length = 0) := by
    have hpos := length_pos_iff.mpr hne
    omega
  dsimp only
  rw [if_neg hlen, Nat.zero_add, hsum]
  exact Reads.pure ns t

/-- What a round of a duration reads is a component, unless it is the last. -/
theorem component_eq {start total k : ℕ} {state : (ℕ × ℕ) ⊕ (ℕ × ℕ)} {c c' : Cursor source}
    (h : durationComponent start (total, k) c = .ok (state, c')) :
    (∃ component : Component, c.remaining = component.text ++ c'.remaining ∧
      state = .inl (total + component.nanos, k + 1) ∧ total + component.nanos < 2 ^ 64) ∨
    state = .inr (total, k) ∧ c' = c := by
  obtain ⟨next, c₁, hnext, h⟩ := run_bind_ok.mp h
  cases hnext
  split at h
  · rename_i hdigit
    obtain ⟨value, c₂, hvalue, h⟩ := run_bind_ok.mp h
    obtain ⟨unit, c₃, hunit, h⟩ := run_bind_ok.mp h
    obtain ⟨digits, hdigits, hparse, hskip⟩ := number_eq hvalue
    cases unit with
    | none => cases h
    | some multiplier =>
      dsimp only at h
      split at h
      · cases h
      · rename_i hfits
        obtain ⟨rfl, rfl⟩ := run_pure_ok.mp h
        obtain ⟨token, hmem, hrest⟩ := consumeFirst_eq hunit
        have hne : digits ≠ [] := by
          rintro rfl
          have hnone : (parseU64 []).map UInt64.toNat = none := by decide
          rw [hnone] at hparse
          cases hparse
        obtain ⟨rfl, -⟩ := (parseU64_digits hne hdigits).mp hparse
        refine .inl ⟨⟨digits, c₂.remaining.takeWhile isWhitespace, (token, multiplier), hne, hdigits,
          fun ch hch => mem_takeWhile_imp hch, hmem⟩, ?_, rfl, ?_⟩
        · have hbegin : skip c.remaining = c.remaining := by
            rcases hrem : c.remaining with _ | ⟨ch, s⟩
            · rfl
            · rw [hrem] at hdigit
              exact skip_cons (not_isWhitespace_of_isDigit (by simpa using hdigit))
          rw [← hbegin, hskip]
          show digits ++ c₂.remaining = digits ++ (c₂.remaining.takeWhile isWhitespace ++ token) ++ c'.remaining
          rw [append_assoc, append_assoc, ← hrest, skip, takeWhile_append_dropWhile]
        · unfold Component.nanos
          dsimp only
          omega
  · obtain ⟨rfl, rfl⟩ := run_pure_ok.mp h
    exact .inr ⟨rfl, rfl⟩

theorem components_eq {start total k total' k' : ℕ} {rounds : ℕ} {c c' : Cursor source}
    (h : loopFrom (durationComponent start) rounds (total, k) c = .ok ((total', k'), c')) (hfits : total < 2 ^ 64) :
    ∃ components : List Component, c.remaining = components.flatMap Component.text ++ c'.remaining ∧
      total' = total + (components.map Component.nanos).sum ∧ total' < 2 ^ 64 ∧ k' = k + components.length := by
  induction rounds generalizing total k c with
  | zero => cases h
  | succ rounds ih =>
    obtain ⟨state, c₁, hstate, hround⟩ := run_bind_ok.mp h
    rcases component_eq hstate with ⟨component, htext, rfl, hlt⟩ | ⟨rfl, rfl⟩
    · obtain ⟨components, hrest, hsum, hbound, hlen⟩ := ih hround hlt
      refine ⟨component :: components, ?_, ?_, hbound, ?_⟩
      · rw [htext, hrest]
        simp
      · rw [hsum, map_cons, sum_cons]
        omega
      · rw [hlen, length_cons]
        omega
    · obtain ⟨heq, rfl⟩ := run_pure_ok.mp hround
      cases heq
      exact ⟨[], rfl, rfl, hfits, rfl⟩

theorem yields_durationNs : @Yields source _ durationNs fun ns ts => ts = [.duration ns] := by
  intro c ns c' h
  obtain ⟨u, c₁, hskip, hbehind⟩ := run_bind_ok.mp h
  cases hskip
  obtain ⟨start, c₂, hstart, hread⟩ := run_bind_ok.mp hbehind
  cases hstart
  obtain ⟨⟨total, k⟩, c₃, hloop, hresult⟩ := run_bind_ok.mp hread
  obtain ⟨components, htext, hsum, hlt, hlen⟩ := components_eq hloop (by simp)
  dsimp only at hresult
  split at hresult
  · cases hresult
  · rename_i hne
    obtain ⟨rfl, rfl⟩ := run_pure_ok.mp hresult
    rw [Cursor.skipWs_remaining] at htext
    refine ⟨_, rfl, fun rest hrest => .behind htext ⟨hlt, ⟨components, ?_, ?_, rfl⟩⟩ trivial hrest⟩
    · rintro rfl
      exact hne (by simpa using hlen)
    · omega

/-! ## Lists -/

theorem Takes.loop_stop {body : α → Parse source (α ⊕ β)} (h : Takes (body a) ts (.inr b) rest) :
    Takes (loop body a) ts b rest := by
  intro s hs
  obtain ⟨t, ht, hread⟩ := h s hs
  exact ⟨t, ht, reads_loop_stop hread⟩

theorem Takes.loop_step {body : α → Parse source (α ⊕ β)} (hprogress : Progress body) {a' : α}
    (h : Takes (body a) ts (.inl a') (us ++ rest)) (hloop : Takes (loop body a') us b rest) :
    Takes (loop body a) (ts ++ us) b rest := by
  intro s hs
  rw [append_assoc] at hs
  obtain ⟨t, ht, hread⟩ := h s hs
  obtain ⟨u, hu, hread'⟩ := hloop t ht
  exact ⟨u, hu, reads_loop_step hprogress hread hread'⟩

/-- Items with a comma between one and the next. -/
def separated (items : List (List Token)) : List Token := [Token.mark ",".toList].intercalate items

theorem separated_cons_cons (ts us : List Token) (items : List (List Token)) :
    separated (ts :: us :: items) = ts ++ [.mark ",".toList] ++ separated (us :: items) := by
  simp [separated, List.intercalate]

theorem separated_singleton (ts : List Token) : separated [ts] = ts := by simp [separated, List.intercalate]

theorem separated_cons (t : Token) (ts : List Token) (items : List (List Token)) :
    ∃ k, separated ((t :: ts) :: items) = t :: k := by
  rcases items with _ | ⟨us, items⟩
  · exact ⟨ts, separated_singleton _⟩
  · exact ⟨_, separated_cons_cons _ _ _⟩

/-- The lists of items of which each has its tokens. -/
def ListTokens (W : α → List Token → Prop) (items : List α) (ts : List Token) : Prop :=
  ∃ tss, List.Forall₂ W items tss ∧ ts = separated tss

section

variable {W : α → List Token → Prop} {item : Parse source α} {close : Text}

theorem Takes.commaList (ch : Char) (hclose : close.head? = some ch) (hword : isWordChar ch = false)
    (hcomma : ch ≠ ',') (hprogress : Progress (listRound close item))
    (hitem : ∀ a ts rest, W a ts → (∃ w us, ts = .word w :: us) ∧ Takes item ts a rest)
    {items : List α} (h : ListTokens W items ts) :
    Takes (commaList close item) (ts ++ [.mark close]) items rest := by
  obtain ⟨tss, hitems, rfl⟩ := h
  -- the rest of the items behind those before
  have hloop : ∀ (a : α) (us : List Token) (items : List α) (uss : List (List Token)) (front : List α),
      W a us → List.Forall₂ W items uss →
        Takes (loop (listRound close item) front) (separated (us :: uss) ++ [.mark close])
          (front ++ a :: items) rest := by
    intro a us items uss front ha hitems
    induction hitems generalizing a us front with
    | nil =>
      rw [separated_singleton]
      refine Takes.loop_stop ((hitem a us _ ha).2.bind ?_)
      exact (Takes.consume close rest).bind_last (Takes.pure _ rest)
    | @cons a' us' items uss ha' _ ih =>
      rw [separated_cons_cons, append_assoc]
      have hrest := ih a' us' (front ++ [a]) ha'
      rw [append_assoc, singleton_append] at hrest
      refine Takes.loop_step hprogress ((hitem a us _ ha).2.bind ?_) hrest
      refine (Takes.consume_not ch hclose ?_).bind_none ((Takes.expect _ _).bind_last (Takes.pure _ _))
      rintro _ ⟨⟩ hbegins
      exact hcomma (some.inj hbegins).symm
  cases hitems with
  | nil => exact (Takes.consume close rest).bind_last (Takes.pure _ rest)
  | @cons a us items uss ha hitems =>
    obtain ⟨w, vs, hus⟩ := (hitem a us rest ha).1
    refine (Takes.consume_not ch hclose ?_).bind_none (hloop a us items uss [] ha hitems)
    obtain ⟨k, hk⟩ := separated_cons (.word w) vs uss
    rw [hus, hk]
    rintro _ ⟨⟩ hbegins
    exact Bool.false_ne_true (hword.symm.trans hbegins)

theorem yields_listRounds (hclose : close ∈ marks) (hitem : Yields item W) {front items : List α} {rounds : ℕ}
    {c c' : Cursor source} (h : loopFrom (listRound close item) rounds front c = .ok (items, c')) :
    ∃ more tss, more ≠ [] ∧ items = front ++ more ∧ List.Forall₂ W more tss ∧
      ∀ rest, Spelled rest c'.remaining → Spelled (separated tss ++ .mark close :: rest) c.remaining := by
  induction rounds generalizing front c with
  | zero => cases h
  | succ rounds ih =>
    obtain ⟨state, c₁, hstate, hround⟩ := run_bind_ok.mp h
    obtain ⟨a, c₂, ha, hbehind⟩ := run_bind_ok.mp hstate
    obtain ⟨ts, hts, hspelled⟩ := hitem _ _ _ ha
    obtain ⟨found, c₃, hfound, hrest⟩ := run_bind_ok.mp hbehind
    obtain ⟨us, rfl, hspelled'⟩ := yields_consume hclose _ _ _ hfound
    split at hrest
    · rename_i htrue
      obtain ⟨rfl, rfl⟩ := run_pure_ok.mp hrest
      obtain ⟨rfl, rfl⟩ := run_pure_ok.mp hround
      refine ⟨[a], [ts], by simp, rfl, .cons hts .nil, fun rest hrest => ?_⟩
      rw [separated_singleton]
      rw [if_pos htrue] at hspelled'
      exact hspelled _ (hspelled' _ hrest)
    · rename_i hfalse
      obtain ⟨u, c₄, hcomma, hrest⟩ := run_bind_ok.mp hrest
      obtain ⟨vs, rfl, hspelled''⟩ := yields_expect (by simp [marks]) _ _ _ hcomma
      obtain ⟨rfl, rfl⟩ := run_pure_ok.mp hrest
      obtain ⟨more, tss, hne, rfl, hmore, hlist⟩ := ih hround
      refine ⟨a :: more, ts :: tss, by simp, by simp, .cons hts hmore, fun rest hrest => ?_⟩
      rcases hmore with _ | ⟨_, _⟩
      · exact absurd rfl hne
      · rw [separated_cons_cons]
        rw [if_neg hfalse] at hspelled'
        have hall := hspelled _ (hspelled' _ (hspelled'' _ (hlist rest hrest)))
        simpa using hall

theorem yields_commaList (hclose : close ∈ marks) (hitem : Yields item W) :
    Yields (commaList close item) fun items ts => ∃ us, ListTokens W items us ∧ ts = us ++ [.mark close] := by
  intro c items c' h
  obtain ⟨found, c₁, hfound, hrest⟩ := run_bind_ok.mp h
  obtain ⟨ts, rfl, hspelled⟩ := yields_consume hclose _ _ _ hfound
  split at hrest
  · rename_i htrue
    obtain ⟨rfl, rfl⟩ := run_pure_ok.mp hrest
    rw [if_pos htrue] at hspelled
    exact ⟨_, ⟨[], ⟨[], .nil, rfl⟩, rfl⟩, hspelled⟩
  · rename_i hfalse
    rw [if_neg hfalse] at hspelled
    obtain ⟨more, tss, -, rfl, hmore, hlist⟩ := yields_listRounds hclose hitem hrest
    refine ⟨_, ⟨separated tss, ⟨tss, hmore, rfl⟩, rfl⟩, fun rest hrest => ?_⟩
    have hall := hspelled _ (hlist rest hrest)
    simpa using hall

end

end

/-! ## Label matchers -/

/-- The operator of a label matcher. -/
def matchText : MatchOp → Text
  | .regex => "=~".toList
  | .notRegex => "!~".toList
  | .ne => "!=".toList
  | .eq => "=".toList

/-- A name, an operator and a string. -/
def MatcherTokens {α : Type} (make : Text → MatchOp → Text → α) (a : α) (ts : List Token) : Prop :=
  ∃ name op value, a = make name op value ∧ ts = [.word name, .mark (matchText op), .quoted value]

/-- A list of words. -/
def WordTokens (word : Text) (ts : List Token) : Prop := ts = [.word word]

section

variable {source : Text} {α : Type}

theorem mem_matchTokens (op : MatchOp) : (matchText op, op) ∈ matchTokens := by
  cases op <;> simp [matchText, matchTokens]

theorem matchTokens_eq {token : Text} {op : MatchOp} (h : (token, op) ∈ matchTokens) : token = matchText op := by
  simp only [matchTokens, mem_cons, Prod.mk.injEq, not_mem_nil, or_false] at h
  rcases h with ⟨rfl, rfl⟩ | ⟨rfl, rfl⟩ | ⟨rfl, rfl⟩ | ⟨rfl, rfl⟩ <;> rfl

theorem matchText_mem (op : MatchOp) : matchText op ∈ marks := by
  cases op <;> simp [matchText, marks]

/-- An operator before a string. -/
theorem takes_operator {tokens : List (Text × α)} {token : Text} {a : α}
    (hpairwise : tokens.Pairwise fun a b => ¬ a.1 <+: b.1)
    (hlonger : ∀ a ∈ tokens, ∀ b ∈ tokens, b.1.length < a.1.length → b.1 <+: a.1 → a.1 = b.1 ++ ['~'])
    (hmem : (token, a) ∈ tokens) (value : Text) (ts rest : List Token) :
    @Takes source _ (consumeFirst tokens) [.mark token] (some a) (.quoted value :: ts ++ rest) := by
  intro s hs
  obtain ⟨text, t, hskip, ⟨-, rfl⟩, -, ht⟩ := hs.uncons
  refine ⟨t, ht, reads_consumeFirst ?_ hskip⟩
  rw [hskip]
  have hend : Ends (fun ch => ch = '~') t := by
    refine ht.ends (fun ch hch => ?_) ?_
    · rw [of_decide_eq_true hch]
      decide
    · rintro _ ⟨⟩ ch rfl
      decide
  exact find?_unless hpairwise hlonger hmem fun hhead => absurd (hend '~' hhead) (by decide)

theorem takes_matcher {message : Text} {make : Text → MatchOp → Text → α} {a : α} {ts rest : List Token}
    (h : MatcherTokens make a ts) : @Takes source _ (matcher message make) ts a rest := by
  obtain ⟨name, op, value, rfl, rfl⟩ := h
  refine Takes.identifier fun range => ?_
  dsimp only
  refine Takes.cons (takes_operator (by decide) (by decide) (mem_matchTokens op) value [] rest) ?_
  exact (Takes.quotedString value rest).bind_last (Takes.pure _ rest)

theorem yields_matcher {message : Text} {make : Text → MatchOp → Text → α} :
    @Yields source _ (matcher message make) (MatcherTokens make) := by
  intro c a c' h
  obtain ⟨name, c₁, hname, h₁⟩ := run_bind_ok.mp h
  obtain ⟨ts, ⟨-, rfl⟩, hspelled⟩ := yields_identifier _ _ _ hname
  obtain ⟨op, c₂, hop, h₂⟩ := run_bind_ok.mp h₁
  cases op with
  | none => cases h₂
  | some op =>
    obtain ⟨value, c₃, hvalue, h₃⟩ := run_bind_ok.mp h₂
    obtain ⟨rfl, rfl⟩ := run_pure_ok.mp h₃
    obtain ⟨us, rfl, hspelled'⟩ := yields_quotedString _ _ _ hvalue
    obtain ⟨token, hmem, hskip⟩ := consumeFirst_eq hop
    refine ⟨_, ⟨name.1, op, value, rfl, rfl⟩, fun rest hrest => hspelled _ ?_⟩
    exact .behind hskip ⟨matchText_mem op, matchTokens_eq hmem⟩ trivial (hspelled' _ hrest)

theorem takes_groupingLabels {labels : List Text} {ts rest : List Token} (h : ListTokens WordTokens labels ts) :
    @Takes source _ groupingLabels (ts ++ [.mark ")".toList]) labels rest := by
  refine Takes.commaList ')' rfl (by decide) (by decide)
    (progress_listRound (safe_identifier.bind fun _ _ => .pure (P := Any) trivial)) ?_ h
  rintro label _ rest rfl
  refine ⟨⟨label, [], rfl⟩, ?_⟩
  show Takes (identifier >>= fun word => pure word.1) [.word label] label rest
  exact Takes.identifier fun range => Takes.pure label rest

theorem yields_groupingLabels : @Yields source _ groupingLabels fun labels ts =>
    ∃ us, ListTokens WordTokens labels us ∧ ts = us ++ [.mark ")".toList] := by
  refine yields_commaList (by simp [marks]) ?_
  intro c label c' h
  have hrun : (identifier >>= fun word => pure word.1) c = .ok (label, c') := h
  obtain ⟨word, c₁, hword, hlabel⟩ := run_bind_ok.mp hrun
  obtain ⟨rfl, rfl⟩ := run_pure_ok.mp hlabel
  obtain ⟨ts, ⟨-, rfl⟩, hspelled⟩ := yields_identifier _ _ _ hword
  exact ⟨_, rfl, hspelled⟩

/-- The labels in parentheses, whatever is made of them. -/
theorem yields_labels {α : Type} (f : List Text → α) :
    @Yields source _ (expect "(".toList >>= fun _ => groupingLabels >>= fun labels => pure (f labels)) fun a ts =>
      ∃ labels us, ListTokens WordTokens labels us ∧ a = f labels ∧
        ts = .mark "(".toList :: (us ++ [.mark ")".toList]) := by
  intro c a c' h
  obtain ⟨u, c₁, hopen, h₁⟩ := run_bind_ok.mp h
  obtain ⟨labels, c₂, hlabels, h₂⟩ := run_bind_ok.mp h₁
  obtain ⟨rfl, rfl⟩ := run_pure_ok.mp h₂
  obtain ⟨_, rfl, s₁⟩ := yields_expect (by simp [marks]) _ _ _ hopen
  obtain ⟨_, ⟨us, hus, rfl⟩, s₂⟩ := yields_groupingLabels _ _ _ hlabels
  exact ⟨_, ⟨labels, us, hus, rfl, rfl⟩, fun rest hrest => s₁ _ (s₂ rest hrest)⟩

end

/-! ## Tokens that have a text -/

/-- Some text is one of the token. -/
def Token.Spellable (t : Token) : Prop := ∃ text, t.Spells text

@[simp] theorem Token.spellable_mark {m : Text} : (mark m).Spellable ↔ m ∈ marks :=
  ⟨fun ⟨_, h, _⟩ => h, fun h => ⟨m, h, rfl⟩⟩

@[simp] theorem Token.spellable_word {w : Text} : (word w).Spellable ↔ IsWord w :=
  ⟨fun ⟨_, h, _⟩ => h, fun h => ⟨w, h, rfl⟩⟩

@[simp] theorem Token.spellable_number {digits : Text} :
    (number digits).Spellable ↔ digits ≠ [] ∧ ∀ ch ∈ digits, isNumberChar ch = true :=
  ⟨fun ⟨_, hne, h, _⟩ => ⟨hne, h⟩, fun h => ⟨digits, h.1, h.2, rfl⟩⟩

/-- Every string can be escaped. -/
theorem exists_escaped (value : Text) : ∃ body, Escaped value body := by
  induction value with
  | nil => exact ⟨[], .nil⟩
  | cons ch value ih =>
    obtain ⟨body, hbody⟩ := ih
    by_cases hquote : ch = '"'
    · subst hquote
      exact ⟨'\\' :: '"' :: body, .escape rfl hbody⟩
    · by_cases hescape : ch = '\\'
      · subst hescape
        exact ⟨'\\' :: '\\' :: body, .escape rfl hbody⟩
      · exact ⟨ch :: body, .plain hquote hescape hbody⟩

@[simp] theorem Token.spellable_quoted (value : Text) : (quoted value).Spellable := by
  obtain ⟨body, hbody⟩ := exists_escaped value
  exact ⟨_, body, hbody, rfl⟩

/-- Every duration of 64 bits is a number of nanoseconds. -/
@[simp] theorem Token.spellable_duration {ns : ℕ} : (duration ns).Spellable ↔ ns < 2 ^ 64 := by
  refine ⟨fun ⟨_, h, _⟩ => h, fun h => ?_⟩
  have hvalue : Nat.ofDigitChars 10 (decimal ns) 0 = ns := Nat.ofDigitChars_ten_toDigits
  let c : Component :=
    ⟨decimal ns, [], ("ns".toList, 1), decimal_ne_nil ns, fun ch => isDigit_of_mem_decimal, by simp [Blank],
      by simp [durationUnits]⟩
  refine ⟨c.text, h, ⟨[c], by simp, ?_, by simp⟩⟩
  simp [c, Component.nanos, hvalue]

/-- Tokens that have texts have one together, with blanks between them. -/
theorem exists_spelled {ts : List Token} (h : ∀ t ∈ ts, t.Spellable) : ∃ s, Spelled ts s := by
  induction ts with
  | nil => exact ⟨[], .nil (by simp [Blank])⟩
  | cons t ts ih =>
    obtain ⟨⟨text, htext⟩, hts⟩ := forall_mem_cons.mp h
    obtain ⟨s, hs⟩ := ih hts
    have hblank : Blank [' '] := by
      intro ch hch
      rw [mem_singleton.mp hch]
      decide
    have hapart : t.Apart ([' '] ++ s) := by
      cases t with
      | word w => exact Ends.cons (by decide) s
      | _ => trivial
    obtain ⟨ch, k, rfl, hch⟩ := htext.begins
    exact ⟨_, .behind (skip_cons (htext.not_isWhitespace hch)) htext hapart (hs.of_blank hblank)⟩

/-- A list of items of which each has tokens with texts. -/
theorem exists_listTokens {α : Type} {W : α → List Token → Prop} {items : List α}
    (h : ∀ a ∈ items, ∃ ts, W a ts ∧ ∀ t ∈ ts, t.Spellable) :
    ∃ ts, ListTokens W items ts ∧ ∀ t ∈ ts, t.Spellable := by
  have hall : ∃ tss, List.Forall₂ W items tss ∧ ∀ t ∈ separated tss, t.Spellable := by
    induction items with
    | nil => exact ⟨[], .nil, by simp [separated, List.intercalate]⟩
    | cons a items ih =>
      obtain ⟨⟨ts, hts, hspell⟩, hitems⟩ := forall_mem_cons.mp h
      obtain ⟨tss, htss, hrest⟩ := ih hitems
      refine ⟨ts :: tss, .cons hts htss, ?_⟩
      rcases tss with _ | ⟨us, tss⟩
      · rwa [separated_singleton]
      · rw [separated_cons_cons]
        simp only [forall_mem_append, forall_mem_singleton]
        exact ⟨⟨hspell, by simp [marks]⟩, hrest⟩
  obtain ⟨tss, htss, hspell⟩ := hall
  exact ⟨_, ⟨tss, htss, rfl⟩, hspell⟩

theorem exists_matcherTokens {α : Type} {make : Text → MatchOp → Text → α} {name : Text} (h : IsWord name)
    (op : MatchOp) (value : Text) : ∃ ts, MatcherTokens make (make name op value) ts ∧ ∀ t ∈ ts, t.Spellable := by
  refine ⟨_, ⟨name, op, value, rfl, rfl⟩, ?_⟩
  simp [h, matchText_mem]

theorem exists_wordTokens {labels : List Text} (h : ∀ label ∈ labels, IsWord label) :
    ∃ ts, ListTokens WordTokens labels ts ∧ ∀ t ∈ ts, t.Spellable :=
  exists_listTokens fun label hlabel => ⟨_, rfl, by simp [h label hlabel]⟩

/-! ## Whole sources -/

section

variable {source : Text} {α : Type} {p : Parse source α} {W : α → List Token → Prop}

theorem finish_ok {c c' : Cursor source} (h : finish c = .ok ((), c')) : skip c.remaining = [] := by
  unfold finish at h
  dsimp only at h
  split at h
  · rename_i hnil
    rwa [Cursor.skipWs_remaining] at hnil
  · cases h

theorem Yields.spelled (h : Yields p W) {c c' : Cursor source} {a : α} (hrun : p c = .ok (a, c'))
    (hend : Spelled [] c'.remaining) : ∃ ts, W a ts ∧ Spelled ts c.remaining := by
  obtain ⟨ts, hts, hspelled⟩ := h c a c' hrun
  exact ⟨ts, hts, append_nil ts ▸ hspelled [] hend⟩

/-- What is accepted up to the end of the source is what is spelled. -/
theorem translate_ok_iff (hyields : ∀ c a c', p c = .ok (a, c') → Spelled [] c'.remaining →
    ∃ ts, W a ts ∧ Spelled ts c.remaining) (htakes : ∀ a ts, W a ts → Takes p ts a []) {a : α} :
    translate source (do
      let a ← p
      finish
      return a) = .ok a ↔ ∃ ts, W a ts ∧ Spelled ts source := by
  constructor
  · intro h
    rcases hrun : (p >>= fun a => finish >>= fun _ => pure a) (Cursor.new source) with d | ⟨b, c⟩
    · rw [translate, hrun] at h
      cases h
    · rw [translate, hrun] at h
      cases h
      obtain ⟨b, c₁, hb, h₁⟩ := run_bind_ok.mp hrun
      obtain ⟨u, c₂, hfinish, h₂⟩ := run_bind_ok.mp h₁
      obtain ⟨rfl, rfl⟩ := run_pure_ok.mp h₂
      exact hyields _ _ _ hb (.nil (dropWhile_eq_nil_iff.mp (finish_ok hfinish)))
  · rintro ⟨ts, hts, hspelled⟩
    obtain ⟨t, ht, hread⟩ := htakes a ts hts source (by simpa using hspelled)
    have hall : @Reads source _ (p >>= fun a => finish >>= fun _ => pure a) source a [] :=
      hread.bind ((reads_finish ht.blank).bind (Reads.pure a []))
    obtain ⟨c, hc, -⟩ := hall (Cursor.new source) rfl
    rw [translate, hc]
    rfl

end

end Imbh.Syntax
