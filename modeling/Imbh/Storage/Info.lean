import Mathlib.Data.List.Nodup
import Imbh.Lib.Text

/-!
# The settings file (`lib.rs`, `db.info`)

A text of tab-separated fields: the WAL mode of the writer, one `promote` line for each promoted key
in column order, and the retention policy. It is written whole, to a temporary file that is renamed, so
that a failed write leaves the file as it was.
-/

namespace Imbh.Storage

open Lib List

/-- The promoted attribute keys, in column order and without duplicates.
Source: `imbh-core` `Promote` -/
structure Promote where
  keys : List Text
  nodup : keys.Nodup
  deriving DecidableEq

/-- Add a key that is not there yet. -/
def Promote.push (p : Promote) (k : Text) : Promote :=
  if h : k ∈ p.keys then p
  else
    { keys := p.keys ++ [k]
      nodup := Nodup.append p.nodup (nodup_singleton k) (disjoint_singleton.mpr h) }

/-- Source: `imbh-core` `Promote::new` -/
def Promote.new (keys : List Text) : Promote := keys.foldl Promote.push ⟨[], nodup_nil⟩

/-- Source: `std::time::Duration` -/
structure Duration where
  secs : UInt64
  nanos : UInt32
  deriving DecidableEq

/-- Source: `imbh-core` `WalMode` -/
inductive WalMode
  | off
  | interval (every : Duration)
  | always
  deriving DecidableEq

/-- Source: `imbh-core` `Retention` -/
structure Retention where
  maxAge : Option Duration
  maxDiskBytes : Option UInt64
  deriving DecidableEq

/-- Source: `imbh-core` `Retention::none` -/
def Retention.none : Retention := ⟨.none, .none⟩

/-- Source: `lib.rs` `wal_mode_token` -/
def walModeToken : WalMode → Text
  | .off => "off".toList
  | .interval _ => "interval".toList
  | .always => "always".toList

/-- One character of `escape_field`. -/
def escapeChar (c : Char) : Text :=
  if c = '\\' then ['\\', '\\'] else if c = '\t' then ['\\', 't']
  else if c = '\n' then ['\\', 'n'] else [c]

/-- Escape a promoted key for one field.
Source: `lib.rs` `escape_field` -/
def escapeField (s : Text) : Text := s.flatMap escapeChar

/-- What a backslash and a character stand for; an unknown escape stands for itself. -/
def unescapeChar (c : Char) : Text :=
  if c = 't' then ['\t'] else if c = 'n' then ['\n'] else if c = '\\' then ['\\'] else ['\\', c]

/-- Source: `lib.rs` `unescape_field` -/
def unescapeField : Text → Text
  | [] => []
  | [c] => [c]
  | c :: x :: rest =>
      if c = '\\' then unescapeChar x ++ unescapeField rest else c :: unescapeField (x :: rest)

/-- The line of a promoted key. -/
def promoteLine (k : Text) : Text := unfields ["promote".toList, escapeField k]

/-- The lines of a retention policy. -/
def retentionLines (r : Retention) : List Text :=
  (match r.maxAge with
    | some age => [unfields ["retain_max_age_secs".toList, textU64 age.secs]]
    | none => []) ++
  (match r.maxDiskBytes with
    | some bytes => [unfields ["retain_max_disk_bytes".toList, textU64 bytes]]
    | none => [])

/-- Source: `lib.rs` `db_info_text` -/
def infoText (mode : WalMode) (promote : Promote) (retention : Retention) : Text :=
  unlines (unfields ["wal_mode".toList, walModeToken mode] ::
    (promote.keys.map promoteLine ++ retentionLines retention))

/-- The field behind a tag, of a line that begins with it. -/
def tagged (tag : Text) (line : Text) : Option (Option Text) :=
  match fields line with
  | t :: rest => if t = tag then some rest.head? else none
  | [] => none

/-- The promoted keys of a file that may be absent.
Source: `lib.rs` `read_promote` -/
def readPromote : Option Text → Promote
  | none => ⟨[], nodup_nil⟩
  | some text => Promote.new ((lines text).filterMap fun line =>
      (tagged "promote".toList line).map fun field => unescapeField (field.getD []))

/-- Source: `lib.rs` `read_retention` -/
def readRetention : Option Text → Retention
  | none => .none
  | some text =>
      let field := fun tag => (lines text).findSome? fun line =>
        (tagged tag line).bind fun field => field.bind parseU64
      { maxAge := (field "retain_max_age_secs".toList).map (⟨·, 0⟩)
        maxDiskBytes := field "retain_max_disk_bytes".toList }

/-- The file after an attempt to write it.
Source: `lib.rs` `write_db_info_at` -/
def writeInfoAt (wrote : Bool) (mode : WalMode) (promote : Promote) (retention : Retention)
    (info : Option Text) : Option Text :=
  if wrote then some (infoText mode promote retention) else info

/-- Refresh the WAL mode at an open; a failure is ignored.
Source: `lib.rs` `write_db_info` -/
def writeInfo (wrote : Bool) (mode : WalMode) (info : Option Text) : Option Text :=
  writeInfoAt wrote mode (readPromote info) (readRetention info) info

/-! ## Reading the keys back -/

/-- Keys without duplicates are taken as they are. -/
theorem Promote.new_keys (p : Promote) : Promote.new p.keys = p := by
  have hfold : ∀ (ks : List Text) (acc : Promote), (acc.keys ++ ks).Nodup →
      (ks.foldl Promote.push acc).keys = acc.keys ++ ks := by
    intro ks
    induction ks with
    | nil => exact fun acc _ => (append_nil _).symm
    | cons k ks ih =>
        intro acc h
        have hk : k ∉ acc.keys := by
          intro hmem
          exact (disjoint_of_nodup_append h) hmem mem_cons_self
        have hpush : (acc.push k).keys = acc.keys ++ [k] := by
          unfold Promote.push
          rw [dif_neg hk]
        have hassoc : acc.keys ++ k :: ks = (acc.push k).keys ++ ks := by
          rw [hpush, append_assoc, singleton_append]
        rw [foldl_cons, hassoc]
        exact ih _ (hassoc ▸ h)
  obtain ⟨keys, hnodup⟩ := p
  have h := hfold keys ⟨[], nodup_nil⟩ hnodup
  unfold Promote.new
  rcases hnew : keys.foldl Promote.push ⟨[], nodup_nil⟩ with ⟨ks, hks⟩
  rw [hnew] at h
  cases h
  rfl

theorem unescapeField_escapeField (s : Text) : unescapeField (escapeField s) = s := by
  induction s with
  | nil => rfl
  | cons c s ih =>
      have hcons : escapeField (c :: s) = escapeChar c ++ escapeField s := flatMap_cons
      rw [hcons]
      unfold escapeChar
      by_cases h₁ : c = '\\'
      · rw [if_pos h₁, h₁]
        show unescapeChar '\\' ++ unescapeField (escapeField s) = '\\' :: s
        rw [ih]
        rfl
      by_cases h₂ : c = '\t'
      · rw [if_neg h₁, if_pos h₂, h₂]
        show unescapeChar 't' ++ unescapeField (escapeField s) = '\t' :: s
        rw [ih]
        rfl
      by_cases h₃ : c = '\n'
      · rw [if_neg h₁, if_neg h₂, if_pos h₃, h₃]
        show unescapeChar 'n' ++ unescapeField (escapeField s) = '\n' :: s
        rw [ih]
        rfl
      · rw [if_neg h₁, if_neg h₂, if_neg h₃, singleton_append]
        rcases hs : escapeField s with _ | ⟨x, rest⟩
        · rw [hs] at ih
          rw [← ih]
          rfl
        · rw [unescapeField, if_neg h₁, ← hs, ih]

theorem mem_escapeField {s : Text} {c : Char} (h : c ∈ escapeField s) : c ≠ '\t' ∧ c ≠ '\n' := by
  obtain ⟨x, -, hx⟩ := mem_flatMap.mp h
  unfold escapeChar at hx
  split at hx
  · simp only [mem_cons, not_mem_nil, or_false, or_self] at hx
    subst hx
    decide
  split at hx
  · simp only [mem_cons, not_mem_nil, or_false] at hx
    rcases hx with rfl | rfl <;> decide
  split at hx
  · simp only [mem_cons, not_mem_nil, or_false] at hx
    rcases hx with rfl | rfl <;> decide
  · rename_i htab hline
    rw [mem_singleton.mp hx]
    exact ⟨htab, hline⟩

/-- An escaped key loses the carriage return that the key does. -/
theorem stripCr_escapeField (s : Text) : stripCr (escapeField s) = escapeField (stripCr s) := by
  rcases s.eq_nil_or_concat' with rfl | ⟨init, c, rfl⟩
  · rfl
  · have hsplit : escapeField (init ++ [c]) = escapeField init ++ escapeChar c := by
      unfold escapeField
      rw [flatMap_append, flatMap_singleton]
    by_cases hc : c = '\r'
    · have hcr : escapeChar c = ['\r'] := by
        rw [hc]
        rfl
      rw [hsplit, hcr, hc]
      simp [stripCr]
    · have hkey : stripCr (init ++ [c]) = init ++ [c] := stripCr_eq_self_iff.mpr (by simpa using hc)
      rw [hkey, hsplit, stripCr_eq_self_iff, getLast?_append]
      unfold escapeChar
      split
      · simp
      split
      · simp
      split
      · simp
      · simpa using hc

/-- No key ends in a carriage return. -/
def Promote.Clean (p : Promote) : Prop := ∀ k ∈ p.keys, k.getLast? ≠ some '\r'

instance (p : Promote) : Decidable p.Clean :=
  inferInstanceAs (Decidable (∀ k ∈ p.keys, k.getLast? ≠ some '\r'))

theorem clean_readPromote_none : (readPromote none).Clean := fun _ hk => absurd hk not_mem_nil

/-- A line of a tag and a field. -/
theorem tagged_unfields {tag field : Text} (htag : '\t' ∉ tag) (hfield : '\t' ∉ field) (t : Text) :
    tagged t (unfields [tag, field]) = if tag = t then some (some field) else none := by
  have hfields : fields (unfields [tag, field]) = [tag, field] := by
    refine fields_unfields (fun f hf => ?_) (cons_ne_nil _ _)
    simp only [mem_cons, not_mem_nil, or_false] at hf
    rcases hf with rfl | rfl
    · exact htag
    · exact hfield
  unfold tagged
  rw [hfields]
  rfl

theorem lineOk_tagged {tag field : Text} (htag : '\n' ∉ tag) (hfield : '\n' ∉ field)
    (hcr : field.getLast? ≠ some '\r') : LineOk (unfields [tag, field]) := by
  refine lineOk_unfields (fun f hf => ?_) (fun f hf => ?_)
  · simp only [mem_cons, not_mem_nil, or_false] at hf
    rcases hf with rfl | rfl
    · exact htag
    · exact hfield
  · cases hf
    exact hcr

theorem not_mem_textU64 (n : UInt64) {c : Char} (h : c.isDigit = false) : c ∉ textU64 n := by
  intro hc
  rw [mem_textU64 hc] at h
  cases h

/-- A line of a number. -/
theorem lineOk_number {tag : Text} (htag : '\n' ∉ tag) (n : UInt64) :
    LineOk (unfields [tag, textU64 n]) := by
  refine lineOk_tagged htag (not_mem_textU64 n (by decide)) fun hcr => ?_
  exact not_mem_textU64 n (by decide) (mem_of_getLast? hcr)

/-- The lines of a retention policy hold no promoted key. -/
theorem retentionLines_ok {r : Retention} {line : Text} (h : line ∈ retentionLines r) :
    LineOk line ∧ tagged "promote".toList line = none := by
  have hnumber : ∀ tag : Text, '\n' ∉ tag → '\t' ∉ tag → tag ≠ "promote".toList → ∀ n : UInt64,
      LineOk (unfields [tag, textU64 n]) ∧
        tagged "promote".toList (unfields [tag, textU64 n]) = none := by
    intro tag hline htab hne n
    refine ⟨lineOk_number hline n, ?_⟩
    rw [tagged_unfields htab (not_mem_textU64 n (by decide)), if_neg hne]
  unfold retentionLines at h
  rcases mem_append.mp h with h | h
  · split at h
    · rw [mem_singleton.mp h]
      exact hnumber _ (by decide) (by decide) (by decide) _
    · cases h
  · split at h
    · rw [mem_singleton.mp h]
      exact hnumber _ (by decide) (by decide) (by decide) _
    · cases h

/-- The token of a mode is a field of a line. -/
theorem walModeToken_plain (mode : WalMode) :
    '\n' ∉ walModeToken mode ∧ '\t' ∉ walModeToken mode ∧ (walModeToken mode).getLast? ≠ some '\r' := by
  cases mode with
  | off =>
    show '\n' ∉ "off".toList ∧ '\t' ∉ "off".toList ∧ "off".toList.getLast? ≠ some '\r'
    decide
  | interval =>
    show '\n' ∉ "interval".toList ∧ '\t' ∉ "interval".toList ∧ "interval".toList.getLast? ≠ some '\r'
    decide
  | always =>
    show '\n' ∉ "always".toList ∧ '\t' ∉ "always".toList ∧ "always".toList.getLast? ≠ some '\r'
    decide

theorem tagged_promoteLine (k tag : Text) :
    tagged tag (promoteLine k) = if "promote".toList = tag then some (some (escapeField k)) else none :=
  tagged_unfields (by decide) (fun hc => (mem_escapeField hc).1 rfl) tag

/-- What is read of the settings file: a line of a key loses a carriage return at its end. -/
theorem lines_infoText (mode : WalMode) (promote : Promote) (retention : Retention) :
    lines (infoText mode promote retention) = unfields ["wal_mode".toList, walModeToken mode] ::
      ((promote.keys.map stripCr).map promoteLine ++ retentionLines retention) := by
  obtain ⟨hline, -, hcr⟩ := walModeToken_plain mode
  have hmode : stripCr (unfields ["wal_mode".toList, walModeToken mode]) =
      unfields ["wal_mode".toList, walModeToken mode] := by
    rw [stripCr_unfields, stripCr_eq_self_iff.mpr hcr]
  have hkeys : (promote.keys.map promoteLine).map stripCr = (promote.keys.map stripCr).map promoteLine := by
    rw [map_map, map_map]
    refine map_congr_left fun k _ => ?_
    show stripCr (unfields ["promote".toList, escapeField k]) = unfields ["promote".toList, escapeField (stripCr k)]
    rw [stripCr_unfields, stripCr_escapeField]
  have hretention : (retentionLines retention).map stripCr = retentionLines retention :=
    map_stripCr_iff.mpr fun line hline => (retentionLines_ok hline).1.2
  have hkey (k : Text) : '\n' ∉ promoteLine k := by
    intro hc
    rcases mem_unfields hc with hc | ⟨f, hf, hc⟩
    · exact absurd hc (by decide)
    · rcases mem_cons.mp hf with rfl | hf
      · exact absurd hc (by decide)
      · rw [mem_singleton.mp hf] at hc
        exact (mem_escapeField hc).2 rfl
  unfold infoText
  rw [lines_unlines_map, map_cons, map_append, hmode, hkeys, hretention]
  intro line hmem
  rcases mem_cons.mp hmem with rfl | hmem
  · exact (lineOk_tagged (by decide) hline hcr).1
  rcases mem_append.mp hmem with hmem | hmem
  · obtain ⟨k, -, rfl⟩ := mem_map.mp hmem
    exact hkey k
  · exact (retentionLines_ok hmem).1.1

/-- The promoted keys that are read: each without a carriage return at its end. -/
theorem readPromote_eq (mode : WalMode) (promote : Promote) (retention : Retention) :
    readPromote (some (infoText mode promote retention)) = Promote.new (promote.keys.map stripCr) := by
  have hmode : tagged "promote".toList (unfields ["wal_mode".toList, walModeToken mode]) = none := by
    rw [tagged_unfields (by decide) (walModeToken_plain mode).2.1, if_neg (by decide)]
  have hretention : (retentionLines retention).filterMap (fun line =>
      (tagged "promote".toList line).map fun field => unescapeField (field.getD [])) = [] := by
    refine filterMap_eq_nil_iff.mpr fun line hline => ?_
    rw [(retentionLines_ok hline).2]
    rfl
  have hkeys (ks : List Text) : (ks.map promoteLine).filterMap (fun line =>
      (tagged "promote".toList line).map fun field => unescapeField (field.getD [])) = ks := by
    rw [filterMap_map]
    refine (filterMap_congr fun k _ => ?_).trans filterMap_some
    show (tagged "promote".toList (promoteLine k)).map (fun field => unescapeField (field.getD [])) =
      some k
    rw [tagged_promoteLine, if_pos rfl, Option.map_some, Option.getD_some, unescapeField_escapeField]
  unfold readPromote
  simp only
  rw [lines_infoText, filterMap_cons_none (by rw [hmode]; rfl), filterMap_append, hretention,
    hkeys, append_nil]

/-- **The promoted keys are read back.** -/
theorem readPromote_infoText (mode : WalMode) {promote : Promote} (retention : Retention)
    (h : promote.Clean) : readPromote (some (infoText mode promote retention)) = promote := by
  rw [readPromote_eq, map_stripCr_iff.mpr h, Promote.new_keys]

/-- A carriage return at the end of a key is lost. -/
example : (readPromote (some (infoText .always ⟨[['k', '\r']], nodup_singleton _⟩ .none))).keys =
    [['k']] := by decide +kernel

/-! ## What survives -/

/-- The number behind a tag, in the first line that has one. Source: `lib.rs` `read_retention`, `field` -/
def numberAt (tag : Text) (ls : List Text) : Option UInt64 :=
  ls.findSome? fun line => (tagged tag line).bind fun field => field.bind parseU64

theorem numberAt_append {tag : Text} {before after : List Text} (h : ∀ line ∈ before, tagged tag line = none) :
    numberAt tag (before ++ after) = numberAt tag after := by
  unfold numberAt
  rw [findSome?_append, findSome?_eq_none_iff.mpr fun line hline => by rw [h line hline]; rfl]
  rfl

theorem numberAt_line {tag line : Text} (htag : '\t' ∉ tag) (n : UInt64) (rest : List Text) (hline : line = tag) :
    numberAt tag (unfields [line, textU64 n] :: rest) = some n := by
  unfold numberAt
  rw [hline, findSome?_cons, tagged_unfields htag (not_mem_textU64 n (by decide)), if_pos rfl, Option.bind_some,
    Option.bind_some, parseU64_textU64]

theorem numberAt_other {tag other : Text} (hother : '\t' ∉ other) (hne : other ≠ tag) (n : UInt64) (rest : List Text) :
    numberAt tag (unfields [other, textU64 n] :: rest) = numberAt tag rest := by
  unfold numberAt
  rw [findSome?_cons, tagged_unfields hother (not_mem_textU64 n (by decide)), if_neg hne, Option.bind_none]

/-- The numbers of a policy are read from its lines. -/
theorem numberAt_retentionLines (r : Retention) :
    numberAt "retain_max_age_secs".toList (retentionLines r) = r.maxAge.map Duration.secs ∧
      numberAt "retain_max_disk_bytes".toList (retentionLines r) = r.maxDiskBytes := by
  have hsecs : '\t' ∉ "retain_max_age_secs".toList := by decide
  have hbytes : '\t' ∉ "retain_max_disk_bytes".toList := by decide
  have hne : "retain_max_age_secs".toList ≠ "retain_max_disk_bytes".toList := by decide
  obtain ⟨age, bytes⟩ := r
  unfold retentionLines
  rcases age with _ | age <;> rcases bytes with _ | bytes
  · exact ⟨rfl, rfl⟩
  · exact ⟨numberAt_other hbytes hne.symm bytes [], numberAt_line hbytes bytes [] rfl⟩
  · exact ⟨numberAt_line hsecs age.secs [] rfl, numberAt_other hsecs hne age.secs []⟩
  · exact ⟨numberAt_line hsecs age.secs _ rfl,
      (numberAt_other hsecs hne age.secs _).trans (numberAt_line hbytes bytes [] rfl)⟩

/-- The policy that is read: an age without a fraction of a second. -/
theorem readRetention_eq (mode : WalMode) (promote : Promote) (retention : Retention) :
    readRetention (some (infoText mode promote retention)) =
      ⟨retention.maxAge.map fun age => ⟨age.secs, 0⟩, retention.maxDiskBytes⟩ := by
  obtain ⟨-, htab, -⟩ := walModeToken_plain mode
  have hbefore (tag : Text) (hmode : "wal_mode".toList ≠ tag) (hkey : "promote".toList ≠ tag) :
      ∀ line ∈ unfields ["wal_mode".toList, walModeToken mode] :: (promote.keys.map stripCr).map promoteLine,
        tagged tag line = none := by
    intro line hmem
    rcases mem_cons.mp hmem with rfl | hmem
    · rw [tagged_unfields (by decide) htab, if_neg hmode]
    · obtain ⟨k, -, rfl⟩ := mem_map.mp hmem
      rw [tagged_promoteLine, if_neg hkey]
  obtain ⟨hage, hbytes⟩ := numberAt_retentionLines retention
  show Retention.mk ((numberAt _ (lines _)).map fun secs => ⟨secs, 0⟩) (numberAt _ (lines _)) = _
  rw [lines_infoText, ← cons_append, numberAt_append (hbefore _ (by decide) (by decide)),
    numberAt_append (hbefore _ (by decide) (by decide)), hage, hbytes, Option.map_map]
  rfl

/-- Keys are added in their order, some of them. -/
theorem Promote.new_sublist (ks : List Text) : (Promote.new ks).keys.Sublist ks := by
  have hfold : ∀ (ks : List Text) (acc : Promote), (ks.foldl Promote.push acc).keys.Sublist (acc.keys ++ ks) := by
    intro ks
    induction ks with
    | nil => exact fun acc => by simp
    | cons k ks ih =>
      intro acc
      have hpush : (acc.push k).keys.Sublist (acc.keys ++ [k]) := by
        unfold Promote.push
        split
        · exact sublist_append_left _ _
        · exact Sublist.refl _
      have hrest := (ih (acc.push k)).trans (hpush.append_right ks)
      rwa [append_assoc, singleton_append] at hrest
  exact hfold ks ⟨[], nodup_nil⟩

/-- As many keys are read as were written only when they are the same. -/
theorem Promote.new_map_eq_iff (p : Promote) (f : Text → Text) : Promote.new (p.keys.map f) = p ↔ p.keys.map f = p.keys := by
  constructor
  · intro h
    have hsub := Promote.new_sublist (p.keys.map f)
    rw [h] at hsub
    exact (hsub.eq_of_length (length_map f).symm).symm
  · intro h
    rw [h, Promote.new_keys]

/-- The settings are read back exactly if no key ends in a carriage return and the age is whole seconds. -/
theorem infoText_exact (mode : WalMode) (promote : Promote) (retention : Retention) :
    (readPromote (some (infoText mode promote retention)) = promote ∧
      readRetention (some (infoText mode promote retention)) = retention) ↔
      promote.Clean ∧ ∀ age, retention.maxAge = some age → age.nanos = 0 := by
  rw [readPromote_eq, readRetention_eq, Promote.new_map_eq_iff, map_stripCr_iff]
  refine and_congr_right fun _ => ?_
  obtain ⟨age, bytes⟩ := retention
  rcases age with _ | ⟨secs, nanos⟩
  · simp
  · simp [eq_comm]

/-- A carriage return at the end of a key and the fraction of a second are lost. -/
theorem infoText_slips :
    readPromote (some (infoText .always ⟨[['k', '\r']], nodup_singleton _⟩ .none)) ≠
        ⟨[['k', '\r']], nodup_singleton _⟩ ∧
      readRetention (some (infoText .always ⟨[], nodup_nil⟩ ⟨some ⟨1, 500000000⟩, none⟩)) =
        ⟨some ⟨1, 0⟩, none⟩ := by
  refine ⟨?_, readRetention_eq _ _ _⟩
  rw [readPromote_eq]
  decide

end Imbh.Storage
