import Imbh.Syntax.Query

/-!
# Safe parsers

A parser goes forward only, so that a diagnostic is placed between the position where a construct began and that of the
cursor.
-/

namespace Imbh.Syntax

open Lib Lgtm List

/-! ## Places -/

/-- The position is between two characters, or at an end. -/
def Boundary (source : Text) (n : ℕ) : Prop := ∃ front, front <+: source ∧ byteLen front = n

/-- The range starts between two characters, and ends there too or one byte further. There is a message, which the error
of a loop without rounds does not have. -/
structure Placed (source : Text) (d : Diagnostic) : Prop where
  start : Boundary source d.range.start
  ordered : d.range.start ≤ d.range.stop
  stop : Boundary source d.range.stop ∨ d.range.stop = d.range.start + 1
  message : d.message ≠ []

variable {message : Text} {range : SourceRange}

section

variable {source : Text}

theorem byteLen_append (s t : Text) : byteLen (s ++ t) = byteLen s + byteLen t := by
  simp [byteLen]

theorem Boundary.le {n : ℕ} (h : Boundary source n) : n ≤ byteLen source := by
  obtain ⟨front, ⟨rest, rfl⟩, rfl⟩ := h
  rw [byteLen_append]
  exact Nat.le_add_right _ _

theorem boundary_position (c : Cursor source) : Boundary source c.position := by
  obtain ⟨front, hfront⟩ := c.suffix
  refine ⟨front, ⟨_, hfront⟩, ?_⟩
  have hlen := congrArg byteLen hfront
  rw [byteLen_append] at hlen
  unfold Cursor.position
  omega

theorem position_le {c c' : Cursor source} (h : c'.remaining <:+ c.remaining) : c.position ≤ c'.position := by
  obtain ⟨front, hfront⟩ := h
  have hlen := congrArg byteLen hfront
  rw [byteLen_append] at hlen
  unfold Cursor.position
  omega

theorem advance_suffix (c : Cursor source) (n : ℕ) : (c.advance n).remaining <:+ c.remaining :=
  drop_suffix n c.remaining

theorem skipWs_suffix (c : Cursor source) : c.skipWs.remaining <:+ c.remaining := advance_suffix c _

theorem placed_error (c : Cursor source) (code : DiagnosticCode) (h : message ≠ []) :
    Placed source (c.error code message) := by
  have hle := (boundary_position c).le
  refine ⟨boundary_position c, ?_, ?_, h⟩
  · show c.position ≤ min (byteLen source) (c.position + 1)
    omega
  · by_cases hend : c.position = byteLen source
    · refine .inl ⟨source, prefix_rfl, ?_⟩
      show byteLen source = min (byteLen source) (c.position + 1)
      omega
    · refine .inr ?_
      show min (byteLen source) (c.position + 1) = c.position + 1
      omega

/-- A range between two places. -/
structure GoodRange (source : Text) (range : SourceRange) : Prop where
  start : Boundary source range.start
  ordered : range.start ≤ range.stop
  stop : Boundary source range.stop

theorem goodRange {c c' : Cursor source} (h : c'.remaining <:+ c.remaining) :
    GoodRange source ⟨c.position, c'.position⟩ :=
  ⟨boundary_position c, position_le h, boundary_position c'⟩

theorem GoodRange.placed (h : GoodRange source range) (code : DiagnosticCode) (hmessage : message ≠ []) :
    Placed source ⟨code, range, message⟩ :=
  ⟨h.start, h.ordered, .inl h.stop, hmessage⟩

/-- A range that is widened if it is empty. -/
theorem GoodRange.placed_max {start stop : ℕ} (h : GoodRange source ⟨start, stop⟩) (code : DiagnosticCode)
    (hmessage : message ≠ []) : Placed source ⟨code, ⟨start, max stop (start + 1)⟩, message⟩ := by
  have hordered : start ≤ stop := h.ordered
  refine ⟨h.start, by simp, ?_, hmessage⟩
  rcases hordered.eq_or_lt with heq | hlt
  · exact .inr (by simp; omega)
  · refine .inl ?_
    have hmax : max stop (start + 1) = stop := by omega
    show Boundary source (max stop (start + 1))
    rw [hmax]
    exact h.stop

end

/-! ## Parsers -/

section

variable {source : Text} {α β : Type}

/-- Behind the position, the errors of the parser are placed in the source, and its values have the property. -/
structure Safe (start : ℕ) (p : Parse source α) (P : α → Prop) : Prop where
  error : ∀ c d, start ≤ c.position → p c = .error d → Placed source d
  ok : ∀ c a c', start ≤ c.position → p c = .ok (a, c') → c'.remaining <:+ c.remaining ∧ P a

/-- The property of every value. -/
abbrev Any : α → Prop := fun _ => True

variable {start : ℕ} {p q : Parse source α} {f : α → Parse source β} {P : α → Prop} {Q : β → Prop}

theorem Safe.pure {a : α} (h : P a) : @Safe source _ start (Pure.pure a) P where
  error c d _ hd := by cases hd
  ok c b c' _ hb := by
    obtain ⟨rfl, rfl⟩ := run_pure_ok.mp hb
    exact ⟨suffix_rfl, h⟩

theorem Safe.bind (hp : Safe start p P) (hf : ∀ a, P a → Safe start (f a) Q) : Safe start (p >>= f) Q where
  error c d hc hd := by
    rcases run_bind_error.mp hd with hd | ⟨a, c', ha, hd⟩
    · exact hp.error c d hc hd
    · obtain ⟨hsuffix, hP⟩ := hp.ok c a c' hc ha
      exact (hf a hP).error c' d (hc.trans (position_le hsuffix)) hd
  ok c b c'' hc hb := by
    obtain ⟨a, c', ha, hb⟩ := run_bind_ok.mp hb
    obtain ⟨hsuffix, hP⟩ := hp.ok c a c' hc ha
    obtain ⟨hsuffix', hQ⟩ := (hf a hP).ok c' b c'' (hc.trans (position_le hsuffix)) hb
    exact ⟨hsuffix'.trans hsuffix, hQ⟩

theorem Safe.mono {P' : α → Prop} (hp : Safe start p P) (h : ∀ a, P a → P' a) : Safe start p P' :=
  ⟨hp.error, fun c a c' hc ha => (hp.ok c a c' hc ha).imp_right (h a)⟩

theorem Safe.ite {b : Prop} [Decidable b] (hp : b → Safe start p P) (hq : ¬b → Safe start q P) :
    Safe start (if b then p else q) P := by
  split
  · exact hp ‹_›
  · exact hq ‹_›

theorem safe_failHere (code : DiagnosticCode) (h : message ≠ []) :
    @Safe source _ start (failHere code message) P where
  error c d _ hd := by
    cases hd
    exact placed_error c code h
  ok c a c' _ ha := by cases ha

theorem safe_failAt (code : DiagnosticCode) (hrange : GoodRange source range) (h : message ≠ []) :
    @Safe source _ start (failAt code range message) P where
  error c d _ hd := by
    cases hd
    exact hrange.placed code h
  ok c a c' _ ha := by cases ha

theorem safe_skipWs : @Safe source _ start skipWs Any where
  error c d _ hd := by cases hd
  ok c a c' _ ha := by
    cases ha
    exact ⟨skipWs_suffix c, trivial⟩

theorem safe_peek : @Safe source _ start peek Any where
  error c d _ hd := by cases hd
  ok c a c' _ ha := by
    cases ha
    exact ⟨suffix_rfl, trivial⟩

/-- A token that is read is one less. -/
theorem consume_spec {token : Text} {c c' : Cursor source} {found : Bool} (h : consume token c = .ok (found, c')) :
    c'.remaining <:+ c.remaining ∧ (found = true → token ≠ [] → c'.remaining.length < c.remaining.length) := by
  unfold consume at h
  dsimp only at h
  split at h
  · rename_i hprefix
    cases h
    have hsuffix := (advance_suffix c.skipWs token.length).trans (skipWs_suffix c)
    refine ⟨hsuffix, fun _ hne => ?_⟩
    have hlen := (skipWs_suffix c).length_le
    have htoken := IsPrefix.length_le <| isPrefixOf_iff_prefix.mp hprefix
    have hpos := length_pos_iff.mpr hne
    rw [Cursor.advance_remaining, length_drop]
    omega
  · cases h
    exact ⟨skipWs_suffix c, fun hfound => by cases hfound⟩

theorem safe_consume (token : Text) : @Safe source _ start (consume token) Any where
  error c d _ hd := by
    unfold consume at hd
    dsimp only at hd
    split at hd
    · cases hd
    · cases hd
  ok c a c' _ ha := ⟨(consume_spec ha).1, trivial⟩

theorem safe_probe (hp : Safe start p P) : Safe start (probe p) P where
  error c d hc hd := by
    unfold probe at hd
    rcases h : p c with d' | ⟨a, c'⟩
    · rw [h] at hd
      cases hd
      exact hp.error c d hc h
    · rw [h] at hd
      cases hd
  ok c a c' hc ha := by
    unfold probe at ha
    rcases h : p c with d' | ⟨b, c''⟩
    · rw [h] at ha
      cases ha
    · rw [h] at ha
      cases ha
      exact ⟨suffix_rfl, (hp.ok c a c'' hc h).2⟩

theorem safe_consumeFirst (tokens : List (Text × α)) :
    @Safe source _ start (consumeFirst tokens) fun found => ∀ a ∈ found, ∃ token, (token, a) ∈ tokens := by
  induction tokens with
  | nil => exact .pure (by simp)
  | cons kv tokens ih =>
    obtain ⟨token, a⟩ := kv
    refine (safe_consume token).bind fun found _ => .ite (fun _ => .pure ?_) fun _ => ih.mono fun found h => ?_
    · rintro _ ⟨⟩
      exact ⟨token, mem_cons_self⟩
    · intro b hb
      obtain ⟨token', hmem⟩ := h b hb
      exact ⟨token', mem_cons_of_mem _ hmem⟩

theorem consumeFirst_lt {tokens : List (Text × α)} (hne : ∀ kv ∈ tokens, kv.1 ≠ []) {c c' : Cursor source} {a : α}
    (h : consumeFirst tokens c = .ok (some a, c')) : c'.remaining.length < c.remaining.length := by
  induction tokens generalizing c with
  | nil => cases h
  | cons kv tokens ih =>
    obtain ⟨hkv, htokens⟩ := forall_mem_cons.mp hne
    obtain ⟨found, c₁, hfound, h⟩ := run_bind_ok.mp h
    obtain ⟨hsuffix, hlt⟩ := consume_spec hfound
    split at h
    · rename_i htrue
      obtain ⟨-, rfl⟩ := run_pure_ok.mp h
      exact hlt htrue hkv
    · exact (ih htokens h).trans_le hsuffix.length_le

theorem safe_consumeKeyword (keyword : Text) : @Safe source _ start (consumeKeyword keyword) Any where
  error c d _ hd := by
    unfold consumeKeyword at hd
    dsimp only at hd
    split at hd
    · cases hd
    · cases hd
  ok c a c' _ ha := by
    unfold consumeKeyword at ha
    dsimp only at ha
    split at ha
    · cases ha
      exact ⟨(advance_suffix c.skipWs keyword.length).trans (skipWs_suffix c), trivial⟩
    · cases ha
      exact ⟨skipWs_suffix c, trivial⟩

theorem safe_expect (token : Text) : @Safe source _ start (expect token) Any :=
  (safe_consume token).bind fun _ _ => .ite (fun _ => .pure trivial) fun _ => safe_failHere _ (by simp)

theorem expect_lt {token : Text} (hne : token ≠ []) {c c' : Cursor source} (h : expect token c = .ok ((), c')) :
    c'.remaining.length < c.remaining.length := by
  obtain ⟨found, c₁, hfound, h⟩ := run_bind_ok.mp h
  obtain ⟨-, hlt⟩ := consume_spec hfound
  split at h
  · rename_i htrue
    obtain ⟨-, rfl⟩ := run_pure_ok.mp h
    exact hlt htrue hne
  · cases h

/-- What stands behind a token that is expected. -/
theorem safe_behind_expect {token : Text} (hne : token ≠ []) {q : Parse source α} (hq : Safe 0 q P) :
    Safe 0 (expect token >>= fun _ => q) P ∧
      ∀ c a c', (expect token >>= fun _ => q) c = .ok (a, c') → c'.remaining.length < c.remaining.length := by
  refine ⟨(safe_expect token).bind fun _ _ => hq, fun c a c' h => ?_⟩
  obtain ⟨u, c₁, hu, h⟩ := run_bind_ok.mp h
  exact (hq.ok _ _ _ (Nat.zero_le _) h).1.length_le.trans_lt (expect_lt hne hu)

/-- What stands behind a token that may be there. -/
theorem safe_behind_consume {token : Text} (hne : token ≠ []) {q r : Parse source α} (hq : Safe 0 q P)
    (hr : Safe 0 r R) :
    Safe 0 (consume token >>= fun found => if found = true then q else r) (fun a => P a ∨ R a) ∧
      ∀ c a c', (consume token >>= fun found => if found = true then q else r) c = .ok (a, c') →
        P a ∧ c'.remaining.length < c.remaining.length ∨ R a ∧ c'.remaining.length ≤ c.remaining.length := by
  refine ⟨(safe_consume token).bind fun _ _ =>
    .ite (fun _ => hq.mono fun _ => .inl) fun _ => hr.mono fun _ => .inr, fun c a c' h => ?_⟩
  obtain ⟨found, c₁, hfound, h⟩ := run_bind_ok.mp h
  obtain ⟨hsuffix, hlt⟩ := consume_spec hfound
  split at h
  · rename_i htrue
    obtain ⟨hrest, ha⟩ := hq.ok _ _ _ (Nat.zero_le _) h
    exact .inl ⟨ha, hrest.length_le.trans_lt (hlt htrue hne)⟩
  · obtain ⟨hrest, ha⟩ := hr.ok _ _ _ (Nat.zero_le _) h
    exact .inr ⟨ha, hrest.length_le.trans hsuffix.length_le⟩

theorem safe_identifier : @Safe source _ start identifier fun word => GoodRange source word.2 where
  error c d _ hd := by
    unfold identifier at hd
    dsimp only at hd
    split at hd
    · cases hd
      exact placed_error _ _ (by simp)
    · cases hd
  ok c a c' _ ha := by
    unfold identifier at ha
    dsimp only at ha
    split at ha
    · cases ha
    · cases ha
      have hsuffix := advance_suffix c.skipWs (c.skipWs.remaining.takeWhile isWordChar).length
      exact ⟨hsuffix.trans (skipWs_suffix c), goodRange hsuffix⟩

theorem safe_quotedString : @Safe source _ start quotedString Any where
  error c d _ hd := by
    unfold quotedString at hd
    dsimp only at hd
    split at hd
    · have hsuffix := (advance_suffix (c.skipWs.advance 1) (quotedBody (c.skipWs.advance 1).remaining).2).trans
        (advance_suffix c.skipWs 1)
      split at hd
      · cases hd
      · cases hd
        exact (goodRange hsuffix).placed _ (by simp)
      · cases hd
        exact placed_error _ _ (by simp)
      · cases hd
        exact placed_error _ _ (by simp)
    · cases hd
      exact placed_error _ _ (by simp)
  ok c a c' _ ha := by
    unfold quotedString at ha
    dsimp only at ha
    split at ha
    · have hsuffix := (advance_suffix (c.skipWs.advance 1) (quotedBody (c.skipWs.advance 1).remaining).2).trans
        (advance_suffix c.skipWs 1)
      split at ha
      · cases ha
        exact ⟨hsuffix.trans (skipWs_suffix c), trivial⟩
      · cases ha
      · cases ha
      · cases ha
    · cases ha

theorem safe_number (isPart : Char → Bool) (parse : Text → Option α) (h : message ≠ []) :
    @Safe source _ start (number isPart parse message) Any where
  error c d _ hd := by
    unfold number at hd
    dsimp only at hd
    split at hd
    · cases hd
    · cases hd
      exact (goodRange (advance_suffix c.skipWs _)).placed_max _ h
  ok c a c' _ ha := by
    unfold number at ha
    dsimp only at ha
    split at ha
    · cases ha
      exact ⟨(advance_suffix c.skipWs _).trans (skipWs_suffix c), trivial⟩
    · cases ha

theorem safe_unsigned : @Safe source _ start unsigned Any := safe_number _ _ (by simp)

theorem safe_float : @Safe source _ start float Any := safe_number _ _ (by simp)

theorem safe_finish : @Safe source _ start finish Any where
  error c d _ hd := by
    unfold finish at hd
    dsimp only at hd
    split at hd
    · cases hd
    · cases hd
      exact placed_error _ _ (by simp)
  ok c a c' _ ha := by
    unfold finish at ha
    dsimp only at ha
    split at ha
    · cases ha
      exact ⟨skipWs_suffix c, trivial⟩
    · cases ha

/-- A loop of which each round but the last reads a character. -/
theorem safe_loop {body : α → Parse source (α ⊕ β)} (hprogress : Progress body) {a : α} (ha : P a)
    (hbody : ∀ a, P a → Safe start (body a) (Sum.elim P Q)) : Safe start (loop body a) Q := by
  have hrounds : ∀ n a c, P a → start ≤ c.position → c.remaining.length < n →
      (∀ d, loopFrom body n a c = .error d → Placed source d) ∧
        ∀ b c', loopFrom body n a c = .ok (b, c') → c'.remaining <:+ c.remaining ∧ Q b := by
    intro n
    induction n with
    | zero => exact fun a c _ _ hlt => absurd hlt (Nat.not_lt_zero _)
    | succ n ih =>
      intro a c ha hc hlt
      have hround := hbody a ha
      refine ⟨fun d hd => ?_, fun b c' hb => ?_⟩
      · rcases run_bind_error.mp hd with hd | ⟨r, c₁, hr, hd⟩
        · exact hround.error c d hc hd
        · obtain ⟨hsuffix, hP⟩ := hround.ok c r c₁ hc hr
          rcases r with a' | b
          · have hless := hprogress a c a' c₁ hr
            exact (ih a' c₁ hP (hc.trans (position_le hsuffix)) (by omega)).1 d hd
          · cases hd
      · obtain ⟨r, c₁, hr, hb⟩ := run_bind_ok.mp hb
        obtain ⟨hsuffix, hP⟩ := hround.ok c r c₁ hc hr
        rcases r with a' | b'
        · have hless := hprogress a c a' c₁ hr
          obtain ⟨hsuffix', hQ⟩ := (ih a' c₁ hP (hc.trans (position_le hsuffix)) (by omega)).2 b c' hb
          exact ⟨hsuffix'.trans hsuffix, hQ⟩
        · obtain ⟨rfl, rfl⟩ := run_pure_ok.mp hb
          exact ⟨hsuffix, hP⟩
  exact ⟨fun c d hc => (hrounds _ a c ha hc (Nat.lt_succ_self _)).1 d,
    fun c b c' hc => (hrounds _ a c ha hc (Nat.lt_succ_self _)).2 b c'⟩

/-! ## Lists and durations -/

theorem progress_listRound {close : Text} {item : Parse source α} (hitem : Safe 0 item P) :
    Progress (listRound close item) := by
  intro items c items' c' h
  obtain ⟨a, c₁, ha, h⟩ := run_bind_ok.mp h
  obtain ⟨found, c₂, hfound, h⟩ := run_bind_ok.mp h
  have hless := (hitem.ok c a c₁ (Nat.zero_le _) ha).1.length_le
  have hless' := (consume_spec hfound).1.length_le
  split at h
  · cases h
  · obtain ⟨u, c₃, hu, h⟩ := run_bind_ok.mp h
    obtain ⟨-, rfl⟩ := run_pure_ok.mp h
    have hlt := expect_lt (by simp) hu
    omega

theorem safe_commaList (close : Text) {item : Parse source α} (hitem : Safe 0 item P) :
    Safe 0 (commaList close item) fun items => ∀ a ∈ items, P a := by
  have hround (items : List α) (hitems : ∀ a ∈ items, P a) : Safe 0 (listRound close item items)
      (Sum.elim (fun items => ∀ a ∈ items, P a) fun items => ∀ a ∈ items, P a) := by
    refine hitem.bind fun a ha => (safe_consume close).bind fun found _ => ?_
    have hmore : ∀ b ∈ items ++ [a], P b := by
      intro b hb
      rcases mem_append.mp hb with hb | hb
      · exact hitems b hb
      · exact mem_singleton.mp hb ▸ ha
    exact .ite (fun _ => .pure hmore) fun _ => (safe_expect _).bind fun _ _ => .pure hmore
  refine (safe_consume close).bind fun found _ => .ite (fun _ => .pure (by simp)) fun _ => ?_
  exact safe_loop (progress_listRound hitem) (by simp) hround

theorem progress_durationComponent (start : ℕ) : Progress (@durationComponent source start) := by
  intro state c state' c' h
  obtain ⟨next, c₁, hnext, h⟩ := run_bind_ok.mp h
  cases hnext
  split at h
  · obtain ⟨value, c₂, hvalue, h⟩ := run_bind_ok.mp h
    obtain ⟨unit, c₃, hunit, h⟩ := run_bind_ok.mp h
    have hless := (safe_unsigned.ok _ _ _ (Nat.zero_le _) hvalue).1.length_le
    cases unit with
    | none => cases h
    | some multiplier =>
      have hlt := consumeFirst_lt (by simp [durationUnits]) hunit
      dsimp only at h
      split at h
      · cases h
      · obtain ⟨-, rfl⟩ := run_pure_ok.mp h
        omega
  · obtain ⟨h, -⟩ := run_pure_ok.mp h
    cases h

theorem safe_failSince (hstart : Boundary source start) (code : DiagnosticCode) (h : message ≠ []) :
    @Safe source _ start (failSince start code message) P where
  error c d hc hd := by
    cases hd
    exact ⟨hstart, hc, .inl (boundary_position c), h⟩
  ok c a c' _ ha := by cases ha

theorem safe_durationComponent (hstart : Boundary source start) (state : ℕ × ℕ) :
    @Safe source _ start (durationComponent start state) (Sum.elim Any Any) := by
  refine safe_peek.bind fun next _ => .ite (fun _ => ?_) fun _ => .pure trivial
  refine safe_unsigned.bind fun value _ => (safe_consumeFirst _).bind fun unit _ => ?_
  cases unit with
  | none => exact safe_failSince hstart _ (by simp)
  | some multiplier => exact .ite (fun _ => safe_failSince hstart _ (by simp)) fun _ => .pure trivial

/-- Behind its reading the position is known. -/
theorem safe_here {f : ℕ → Parse source α} (h : ∀ start, Boundary source start → Safe start (f start) P) :
    Safe 0 (here >>= f) P :=
  ⟨fun c d _ => (h c.position (boundary_position c)).error c d le_rfl,
    fun c a c' _ => (h c.position (boundary_position c)).ok c a c' le_rfl⟩

theorem safe_durationNs : @Safe source _ 0 durationNs Any := by
  refine safe_skipWs.bind fun _ _ => safe_here fun start hstart => ?_
  refine (safe_loop (progress_durationComponent start) (P := Any) (Q := Any) trivial
    fun state _ => safe_durationComponent hstart state).bind fun result _ => ?_
  refine .ite (fun _ => ⟨fun c d hc hd => ?_, fun c a c' _ ha => ?_⟩) fun _ => .pure trivial
  · cases hd
    exact GoodRange.placed_max ⟨hstart, hc, boundary_position c⟩ _ (by simp)
  · cases ha

/-- A check that is no parser, of a name at a range. -/
theorem safe_resolve {result : Except Diagnostic α} (h : ∀ d, result = .error d → Placed source d) :
    @Safe source _ start (liftM result) Any where
  error c d _ hd := by
    rcases result with e | a
    · cases hd
      exact h d rfl
    · cases hd
  ok c a c' _ ha := by
    rcases result with e | b
    · cases ha
    · cases ha
      exact ⟨suffix_rfl, trivial⟩

theorem safe_resolveMetric (context : TranslateContext) (name : Text) (kind : MetricKind)
    (hrange : GoodRange source range) : @Safe source _ start (liftM (context.resolveMetric name kind range)) Any := by
  refine safe_resolve fun d hd => ?_
  unfold TranslateContext.resolveMetric at hd
  split at hd
  · cases hd
    exact hrange.placed _ (by simp)
  · cases hd
  · cases hd
    exact hrange.placed _ (by simp)

theorem safe_resolveAnyMetric (context : TranslateContext) (name : Text) (hrange : GoodRange source range) :
    @Safe source _ start (liftM (context.resolveAnyMetric name range)) Any := by
  refine safe_resolve fun d hd => ?_
  unfold TranslateContext.resolveAnyMetric at hd
  split at hd
  · cases hd
    exact hrange.placed _ (by simp)
  · cases hd
  · cases hd
    exact hrange.placed _ (by simp)

theorem safe_matcher (h : message ≠ []) (make : Text → MatchOp → Text → α)
    (hmake : ∀ name op value, P (make name op value)) : @Safe source _ 0 (matcher message make) P := by
  refine safe_identifier.bind fun name _ => (safe_consumeFirst _).bind fun op _ => ?_
  cases op with
  | none => exact safe_failHere _ h
  | some op => exact safe_quotedString.bind fun value _ => .pure (hmake _ _ _)

theorem safe_groupingLabels : @Safe source _ 0 groupingLabels Any :=
  (safe_commaList _ (safe_identifier.bind fun _ _ => .pure (P := Any) trivial)).mono fun _ _ => trivial

end

end Imbh.Syntax
