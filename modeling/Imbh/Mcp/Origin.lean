import Imbh.Lib.Split

/-!
# The check of the origin

A browser names the page that a request comes from. Without a wildcard, the pages of an allow-list and those
of the own host are admitted.

* `origin_exact_iff` — the check admits just these, unless the cut of the origin passes over what is around
  the host.
* `origin_admits_other_host` — a page of another host that is admitted.
-/

namespace Imbh.Mcp

open Lib List Option

/-! ## The check -/

/-- The host of an authority, with its brackets, and what is behind it.
Source: `lib.rs` `origin_host`, the match -/
def cutHost (rest : Text) : Option (Text × Text) :=
  match rest with
  | '[' :: v6 =>
      if ']' ∈ v6 then
        let n := (v6.takeWhile (· ≠ ']')).length + 2
        some (rest.take n, rest.drop n)
      else none
  | _ => some (rest.takeWhile (· ≠ ':'), rest.dropWhile (· ≠ ':'))

/-- The scheme, the host and what is behind the host. -/
def cutOrigin (origin : Text) : Option (Text × Text × Text) := do
  let (scheme, rest) ← splitOnce "://".toList origin
  let (host, behind) ← cutHost rest
  return (scheme, host, behind)

/-- Source: `lib.rs` `origin_host` -/
def originHost (origin : Text) : Option Text := do
  let (_, host, _) ← cutOrigin (trim origin)
  if host = [] then none else some (host.map Char.toLower)

/-- Source: `lib.rs` `is_loopback` -/
def isLoopback (host : Text) : Bool :=
  host = "localhost".toList || host = "127.0.0.1".toList || host = "[::1]".toList ||
    match "127.".toList.isPrefixOf? host with
    | some rest => (rest.splitOn '.').length = 3 && (rest.splitOn '.').all fun o => (parseBelow 256 o).isSome
    | none => false

/-- Source: `lib.rs` `origin_allowed` -/
def originAllowed (origin : Text) (allowed : List Text) : Bool :=
  allowed.any (· = ['*']) || (allowed.any fun a => eqIgnoreAsciiCase a (trim origin)) ||
    (originHost origin).any isLoopback

/-! ## Local pages -/

/-- `localhost`, an address of `127.0.0.0/8` and `[::1]`. -/
inductive LoopbackName : Text → Prop
  | localhost : LoopbackName "localhost".toList
  | v4 (a b c : Fin 256) :
      LoopbackName ("127.".toList ++ ['.'].intercalate [decimal a, decimal b, decimal c])
  | v6 : LoopbackName "[::1]".toList

/-- A letter, and then letters, digits, plus, minus and point. -/
def IsScheme (scheme : Text) : Prop :=
  ∃ c s, scheme = c :: s ∧ c.isAlpha = true ∧ ∀ x ∈ s, x.isAlphanum = true ∨ x ∈ ['+', '-', '.']

/-- Nothing, or a colon and digits. -/
def IsPort (port : Text) : Prop := port = [] ∨ ∃ digits, port = ':' :: digits ∧ ∀ c ∈ digits, c.isDigit = true

/-- The form `scheme://host` of a local page, with a port or not. -/
def LocalOrigin (origin : Text) : Prop :=
  ∃ scheme host port, origin = scheme ++ ("://".toList ++ (host ++ port)) ∧
    IsScheme scheme ∧ LoopbackName (host.map Char.toLower) ∧ IsPort port

/-- An entry of the allow-list, but for case and the blanks around the origin. -/
def IsEntry (origin : Text) (allowed : List Text) : Prop :=
  ∃ a ∈ allowed, a.map Char.toLower = (trim origin).map Char.toLower

/-- The host of a URL: the authority ends at a slash or the like, and begins behind what names the user. -/
def browserHost (origin : Text) : Option Text := do
  let (_, rest) ← splitOnce "://".toList origin
  let authority := rest.takeWhile fun c => c ∉ ['/', '\\', '?', '#']
  let (host, _) ← cutHost (authority.reverse.takeWhile (· ≠ '@')).reverse
  return host.map Char.toLower

/-- The check is exact at an origin, and admits no page of another host. -/
structure Exact (origin : Text) (allowed : List Text) : Prop where
  iff : originAllowed origin allowed = true ↔ IsEntry origin allowed ∨ LocalOrigin (trim origin)
  host : originAllowed origin allowed = true → ¬ IsEntry origin allowed →
    ∀ h, browserHost (trim origin) = some h → LoopbackName h

/-- The host that is cut out passes as local, but what is before it is no scheme, it is not written as a local
host is, or what is behind it is no port. -/
def Slips (origin : Text) : Prop :=
  ∃ scheme host behind, cutOrigin origin = some (scheme, host, behind) ∧
    isLoopback (host.map Char.toLower) = true ∧
      ¬ (IsScheme scheme ∧ LoopbackName (host.map Char.toLower) ∧ IsPort behind)

/-! ## Names -/

/-- A character that is no letter has no other case. -/
theorem eq_of_toLower {c x : Char} (h : c.toLower = x) (hx : x.isLower = false) : c = x := by
  unfold Char.toLower at h
  split at h
  · rename_i hupper
    subst h
    have hlo : 65 ≤ c.toNat := hupper.1
    have hhi : c.toNat ≤ 90 := hupper.2
    have hval : (c.val + ('a'.val - 'A'.val)).toNat = c.toNat + 32 := by
      show (c.val.toNat + 32) % 2 ^ 32 = c.val.toNat + 32
      have heq : c.val.toNat = c.toNat := rfl
      omega
    have hlower : Char.isLower ⟨c.val + ('a'.val - 'A'.val), Or.inl (by rw [hval]; omega)⟩ = true := by
      refine Bool.and_eq_true_iff.mpr ⟨decide_eq_true ?_, decide_eq_true ?_⟩
      · show 97 ≤ (c.val + ('a'.val - 'A'.val)).toNat
        omega
      · show (c.val + ('a'.val - 'A'.val)).toNat ≤ 122
        omega
    exact absurd (hlower.symm.trans hx) (by simp)
  · exact h

theorem intercalate_octets (a b c : Text) :
    ['.'].intercalate [a, b, c] = a ++ '.' :: (b ++ '.' :: c) := by
  simp [List.intercalate, List.intersperse]

/-- The characters that end a host, or a part of the authority around it. -/
def delimiters : List Char := [':', '/', '\\', '?', '#', '@', '[', ']']

/-- A loopback name has no delimiter, but for the brackets. -/
theorem LoopbackName.chars {h : Text} (hname : LoopbackName h) :
    h = "[::1]".toList ∨ h ≠ [] ∧ ∀ c ∈ h, c ∉ delimiters := by
  have hdigit : ∀ {n : ℕ} {c : Char}, c ∈ decimal n → c ∉ delimiters := by
    intro n c hc hmem
    have hall : ∀ c ∈ delimiters, c.isDigit = false := by simp [delimiters]
    exact absurd ((isDigit_of_mem_decimal hc).symm.trans (hall c hmem)) (by simp)
  cases hname with
  | localhost => exact .inr ⟨by simp, by simp [delimiters]⟩
  | v6 => exact .inl rfl
  | v4 a b c =>
    refine .inr ⟨by simp, ?_⟩
    rw [intercalate_octets]
    intro x hx
    simp only [mem_append, mem_cons] at hx
    rcases hx with hx | hx | rfl | hx | rfl | hx
    · revert x
      simp [delimiters]
    · exact hdigit hx
    · decide
    · exact hdigit hx
    · decide
    · exact hdigit hx

/-- The same of a host whose letters have any case. -/
theorem chars_of_lower {host : Text} (h : LoopbackName (host.map Char.toLower)) :
    host = "[::1]".toList ∨ host ≠ [] ∧ ∀ c ∈ host, c ∉ delimiters := by
  rcases h.chars with heq | ⟨hne, hchars⟩
  · refine .inl ?_
    have hplain : ∀ x ∈ "[::1]".toList, x.isLower = false := by simp
    rw [← heq] at hplain ⊢
    refine (map_id host).symm.trans (map_congr_left fun c hc => ?_)
    exact eq_of_toLower rfl (hplain _ (mem_map_of_mem hc))
  · refine .inr ⟨fun hnil => hne (by rw [hnil, map_nil]), fun c hc hmem => ?_⟩
    have hsame : ∀ c ∈ delimiters, c.toLower = c := by simp [delimiters]
    exact hchars _ (mem_map_of_mem hc) ((hsame c hmem).symm ▸ hmem)

/-- Such a name is a loopback. -/
theorem isLoopback_of_name {h : Text} (hname : LoopbackName h) : isLoopback h = true := by
  cases hname with
  | localhost => decide
  | v6 => decide
  | v4 a b c =>
    have hsplit : (['.'].intercalate [decimal a, decimal b, decimal c]).splitOn '.' =
        [decimal a, decimal b, decimal c] := by
      apply splitOn_intercalate
      · intro l hl hmem
        simp only [mem_cons, not_mem_nil, or_false] at hl
        rcases hl with rfl | rfl | rfl <;> exact absurd (isDigit_of_mem_decimal hmem) (by decide)
      · simp
    unfold isLoopback
    rw [isPrefixOf?_append, Bool.or_eq_true]
    dsimp only
    rw [hsplit]
    simp [parseBelow_decimal]

/-! ## The cuts -/

theorem cutHost_eq {rest host behind : Text} (h : cutHost rest = some (host, behind)) : rest = host ++ behind := by
  unfold cutHost at h
  split at h
  · split at h
    · cases h
      exact (take_append_drop _ _).symm
    · cases h
  · cases h
    exact takeWhile_append_dropWhile.symm

/-- A host is cut off its port. -/
theorem cutHost_append {host port : Text} (h : LoopbackName (host.map Char.toLower)) (hport : IsPort port) :
    cutHost (host ++ port) = some (host, port) := by
  rcases chars_of_lower h with rfl | ⟨hne, hchars⟩
  · rfl
  · obtain ⟨c, s, rfl⟩ := exists_cons_of_ne_nil hne
    have hbracket : c ≠ '[' := by
      rintro rfl
      exact hchars _ mem_cons_self (by decide)
    have hcolon : ∀ x ∈ c :: s, decide (x ≠ ':') = true := by
      intro x hx
      rw [decide_eq_true_eq]
      rintro rfl
      exact hchars _ hx (by decide)
    have hstop : ∀ x ∈ port.head?, decide (x ≠ ':') = false := by
      rcases hport with rfl | ⟨digits, rfl, -⟩
      · simp
      · simp
    obtain ⟨htake, hdrop⟩ := takeWhile_append_stop hcolon hstop
    unfold cutHost
    split
    · rename_i heq
      exact absurd (List.cons.inj heq).1 hbracket
    · rw [htake, hdrop]

theorem cutOrigin_eq {origin scheme host behind : Text} (h : cutOrigin origin = some (scheme, host, behind)) :
    origin = scheme ++ ("://".toList ++ (host ++ behind)) := by
  obtain ⟨⟨scheme', rest⟩, hscheme, hrest⟩ := bind_eq_some_iff.mp h
  obtain ⟨⟨host', behind'⟩, hhost, hparts⟩ := bind_eq_some_iff.mp hrest
  cases hparts
  rw [splitOnce_eq hscheme, cutHost_eq hhost]

theorem IsScheme.colon {scheme : Text} (h : IsScheme scheme) : ':' ∉ scheme := by
  obtain ⟨c, s, rfl, hc, hs⟩ := h
  rintro (_ | ⟨_, hmem⟩)
  · exact absurd hc (by decide)
  · exact absurd (hs _ hmem) (by decide)

/-- The origin of a local page is cut where it should be. -/
theorem cutOrigin_append {scheme host port : Text} (hscheme : IsScheme scheme)
    (h : LoopbackName (host.map Char.toLower)) (hport : IsPort port) :
    cutOrigin (scheme ++ ("://".toList ++ (host ++ port))) = some (scheme, host, port) := by
  have hsplit : splitOnce "://".toList (scheme ++ ("://".toList ++ (host ++ port))) =
      some (scheme, host ++ port) := splitOnce_append hscheme.colon _
  unfold cutOrigin
  rw [hsplit, bind_eq_bind, bind_some]
  dsimp only
  rw [cutHost_append h hport]
  rfl

/-- Of a local page the browser takes the same host. -/
theorem browserHost_append {scheme host port : Text} (hscheme : IsScheme scheme)
    (h : LoopbackName (host.map Char.toLower)) (hport : IsPort port) :
    browserHost (scheme ++ ("://".toList ++ (host ++ port))) = some (host.map Char.toLower) := by
  have hsplit : splitOnce "://".toList (scheme ++ ("://".toList ++ (host ++ port))) =
      some (scheme, host ++ port) := splitOnce_append hscheme.colon _
  have hplain : ∀ c ∈ host ++ port, c ∉ ['/', '\\', '?', '#'] ∧ c ≠ '@' := by
    intro c hc
    rcases mem_append.mp hc with hc | hc
    · rcases chars_of_lower h with rfl | ⟨-, hchars⟩
      · have hall : ∀ c ∈ "[::1]".toList, c ∉ ['/', '\\', '?', '#'] ∧ c ≠ '@' := by simp
        exact hall c hc
      · have hnot := hchars c hc
        simp only [delimiters, mem_cons, not_or] at hnot ⊢
        tauto
    · rcases hport with rfl | ⟨digits, rfl, hdigits⟩
      · cases hc
      · rcases mem_cons.mp hc with rfl | hc
        · decide
        · have hd := hdigits c hc
          constructor
          · intro hmem
            have hall : ∀ c ∈ ['/', '\\', '?', '#'], c.isDigit = false := by simp
            exact absurd (hd.symm.trans (hall c hmem)) (by simp)
          · rintro rfl
            exact absurd hd (by decide)
  have hauthority : ((host ++ port).takeWhile fun c => c ∉ ['/', '\\', '?', '#']) = host ++ port :=
    takeWhile_eq_self_iff.mpr fun c hc => decide_eq_true (hplain c hc).1
  have huser : (host ++ port).reverse.takeWhile (· ≠ '@') = (host ++ port).reverse :=
    takeWhile_eq_self_iff.mpr fun c hc => decide_eq_true (hplain c (mem_reverse.mp hc)).2
  unfold browserHost
  rw [hsplit, bind_eq_bind, bind_some]
  dsimp only
  rw [hauthority, huser, reverse_reverse, cutHost_append h hport]
  rfl

/-! ## What is admitted -/

section

variable {origin : Text} {allowed : List Text}

/-- The host of an origin is a loopback, if and only if it is cut as one. -/
theorem originHost_loopback :
    (originHost origin).any isLoopback = true ↔
      ∃ scheme host behind, cutOrigin (trim origin) = some (scheme, host, behind) ∧
        isLoopback (host.map Char.toLower) = true := by
  unfold originHost
  rcases cutOrigin (trim origin) with _ | ⟨scheme, host, behind⟩
  · simp
  · have hempty : isLoopback [] = false := by decide
    by_cases hnil : host = []
    · subst hnil
      simp [hempty]
    · simp [hnil]

/-- Without a star an origin is allowed as an entry or as a loopback. -/
theorem originAllowed_iff (hstar : ['*'] ∉ allowed) :
    originAllowed origin allowed = true ↔ IsEntry origin allowed ∨
      ∃ scheme host behind, cutOrigin (trim origin) = some (scheme, host, behind) ∧
        isLoopback (host.map Char.toLower) = true := by
  have hwild : (allowed.any fun a => decide (a = ['*'])) = false := by
    rw [List.any_eq_false]
    intro a ha hequal
    rw [decide_eq_true_eq] at hequal
    exact hstar (hequal ▸ ha)
  have hentry : (allowed.any fun a => eqIgnoreAsciiCase a (trim origin)) = true ↔ IsEntry origin allowed := by
    simp [IsEntry, eqIgnoreAsciiCase]
  unfold originAllowed
  rw [hwild, Bool.false_or, Bool.or_eq_true, hentry, originHost_loopback]

end

/-- The check is exact and admits no page of another host, unless no entry of the allow-list equals the origin
and the cut slips. -/
theorem origin_exact_iff {origin : Text} {allowed : List Text} (hstar : ['*'] ∉ allowed) :
    Exact origin allowed ↔ ¬ (¬ IsEntry origin allowed ∧ Slips (trim origin)) := by
  constructor
  · rintro hexact ⟨hentry, scheme, host, behind, hcut, hloopback, hbad⟩
    have hadmitted := (originAllowed_iff hstar).mpr (.inr ⟨scheme, host, behind, hcut, hloopback⟩)
    obtain ⟨scheme', host', port, horigin, hscheme, hname, hport⟩ :=
      (hexact.iff.mp hadmitted).resolve_left hentry
    rw [horigin, cutOrigin_append hscheme hname hport] at hcut
    cases hcut
    exact hbad ⟨hscheme, hname, hport⟩
  · intro hslips
    have hlocal : originAllowed origin allowed = true → ¬ IsEntry origin allowed →
        LocalOrigin (trim origin) := by
      intro hadmitted hentry
      obtain ⟨scheme, host, behind, hcut, hloopback⟩ :=
        ((originAllowed_iff hstar).mp hadmitted).resolve_left hentry
      by_contra hno
      refine hslips ⟨hentry, scheme, host, behind, hcut, hloopback, fun hgood => hno ?_⟩
      exact ⟨scheme, host, behind, cutOrigin_eq hcut, hgood⟩
    refine ⟨⟨fun hadmitted => or_iff_not_imp_left.mpr (hlocal hadmitted), ?_⟩, ?_⟩
    · rintro (hentry | ⟨scheme, host, port, horigin, hscheme, hname, hport⟩)
      · exact (originAllowed_iff hstar).mpr (.inl hentry)
      · refine (originAllowed_iff hstar).mpr (.inr ⟨scheme, host, port, ?_, isLoopback_of_name hname⟩)
        rw [horigin]
        exact cutOrigin_append hscheme hname hport
    · intro hadmitted hentry h hhost
      obtain ⟨scheme, host, port, horigin, hscheme, hname, hport⟩ := hlocal hadmitted hentry
      rw [horigin, browserHost_append hscheme hname hport] at hhost
      cases hhost
      exact hname

/-- An origin without a slip. -/
theorem origin_exact_localhost : Exact "http://localhost:5173".toList [] := by
  refine (origin_exact_iff (by simp)).mpr ?_
  rintro ⟨-, scheme, host, behind, hcut, -, hbad⟩
  have hparts : cutOrigin (trim "http://localhost:5173".toList) =
      some ("http".toList, "localhost".toList, ":5173".toList) := by decide
  rw [hparts] at hcut
  cases hcut
  exact hbad ⟨⟨'h', "ttp".toList, rfl, by decide, by simp⟩, .localhost, .inr ⟨"5173".toList, rfl, by simp⟩⟩

/-- A page of `evil.com` that names a user and a password. -/
theorem origin_admits_other_host : ¬ Exact "http://localhost:1@evil.com".toList [] := by
  intro hexact
  have hname := hexact.host (by decide) (by simp [IsEntry]) "evil.com".toList (by decide)
  exact absurd (isLoopback_of_name hname) (by decide)

end Imbh.Mcp
