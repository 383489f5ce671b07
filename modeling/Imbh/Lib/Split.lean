import Mathlib.Data.List.TakeWhile
import Imbh.Lib.Text

/-!
# Cutting texts at separators
-/

namespace Imbh.Lib

open List

/-- What is before and behind the first of a separator. Source: `str::split_once` -/
def splitOnce (separator : Text) : Text → Option (Text × Text)
  | [] => none
  | c :: s =>
      match separator.isPrefixOf? (c :: s) with
      | some rest => some ([], rest)
      | none => (splitOnce separator s).map fun (before, rest) => (c :: before, rest)

/-- What is before and behind the first character that satisfies a predicate. Source: `str::split_once` -/
def splitAtChar (p : Char → Bool) (s : Text) : Option (Text × Text) :=
  match s.dropWhile fun c => !p c with
  | [] => none
  | _ :: rest => some (s.takeWhile fun c => !p c, rest)

/-- What is before and behind the last character that satisfies a predicate, which is kept.
Source: `str::rfind` -/
def rsplitAtChar (p : Char → Bool) (s : Text) : Option (Text × Char × Text) :=
  match s.reverse.dropWhile fun c => !p c with
  | [] => none
  | c :: before => some (before.reverse, c, (s.reverse.takeWhile fun c => !p c).reverse)

/-- The pieces between a character, of which the last may hold it again. Source: `str::splitn` -/
def splitn : ℕ → Char → Text → List Text
  | 0, _, _ => []
  | 1, _, s => [s]
  | n + 2, separator, s =>
      match splitAtChar (· = separator) s with
      | some (piece, rest) => piece :: splitn (n + 1) separator rest
      | none => [s]

/-- The equality of texts but for the case of letters. Source: `str::eq_ignore_ascii_case` -/
def eqIgnoreAsciiCase (a b : Text) : Bool := a.map Char.toLower = b.map Char.toLower

/-- A number below a bound, with an optional plus sign. Source: `parse::<u8>` and the like -/
def parseBelow (bound : ℕ) (s : Text) : Option ℕ :=
  let digits :=
    match s with
    | '+' :: rest => rest
    | _ => s
  (parseDigits digits).bind fun n => if n < bound then some n else none

/-- A prefix and what is behind it. -/
theorem isPrefixOf?_eq_some {p s rest : Text} (h : p.isPrefixOf? s = some rest) : s = p ++ rest := by
  induction p generalizing s with
  | nil =>
    cases h
    rfl
  | cons c p ih =>
    rcases s with _ | ⟨x, s⟩
    · cases h
    · rw [List.isPrefixOf?] at h
      split at h
      · rename_i heq
        rw [ih h, (beq_iff_eq.mp heq : c = x)]
        rfl
      · cases h

variable {before : Text}

/-- The separator stands between the parts. -/
theorem splitOnce_eq {separator s rest : Text} (h : splitOnce separator s = some (before, rest)) :
    s = before ++ (separator ++ rest) := by
  induction s generalizing before with
  | nil => cases h
  | cons c s ih =>
    rw [splitOnce] at h
    split at h
    · rename_i hstart
      cases h
      rw [isPrefixOf?_eq_some hstart, nil_append]
    · obtain ⟨⟨before', rest'⟩, hsplit, heq⟩ := Option.map_eq_some_iff.mp h
      cases heq
      rw [ih hsplit]
      rfl

/-- Before the separator stands nothing that it begins with. -/
theorem splitOnce_append {x : Char} {separator : Text} (h : x ∉ before) (rest : Text) :
    splitOnce (x :: separator) (before ++ (x :: separator ++ rest)) = some (before, rest) := by
  induction before with
  | nil =>
    show splitOnce (x :: separator) (x :: (separator ++ rest)) = _
    rw [splitOnce]
    have hstart := isPrefixOf?_append (x :: separator) rest
    rw [cons_append] at hstart
    rw [hstart]
  | cons c before ih =>
    rw [mem_cons, not_or] at h
    rw [cons_append, splitOnce, List.isPrefixOf?, if_neg (by simpa using h.1)]
    simp only [ih h.2, Option.map_some]

/-- Up to a character that is not in a text. -/
theorem takeWhile_append_stop {p : Char → Bool} {s rest : Text} (hs : ∀ c ∈ s, p c = true)
    (hrest : ∀ c ∈ rest.head?, p c = false) :
    (s ++ rest).takeWhile p = s ∧ (s ++ rest).dropWhile p = rest := by
  rw [takeWhile_append_of_pos hs, dropWhile_append_of_pos hs]
  rcases rest with _ | ⟨c, rest⟩
  · simp
  · have hc : ¬p c = true := by simpa using hrest c rfl
    rw [takeWhile_cons_of_neg hc, dropWhile_cons_of_neg hc, append_nil]
    exact ⟨rfl, rfl⟩

section

variable {p : Char → Bool} {c : Char} {s rest : Text}

theorem splitAtChar_append (hs : ∀ x ∈ s, p x = false) (hc : p c = true) :
    splitAtChar p (s ++ c :: rest) = some (s, rest) := by
  have hstop := @takeWhile_append_stop (fun c => !p c) s (c :: rest) (fun x hx => by simp [hs x hx])
    (fun x hx => by cases hx; simp [hc])
  unfold splitAtChar
  rw [hstop.1, hstop.2]

theorem splitAtChar_eq_none (hs : ∀ x ∈ s, p x = false) : splitAtChar p s = none := by
  have hdrop : s.dropWhile (fun c => !p c) = [] := dropWhile_eq_nil_iff.mpr fun x hx => by simp [hs x hx]
  unfold splitAtChar
  rw [hdrop]

/-- The character that is split at stands between the parts. -/
theorem splitAtChar_eq (h : splitAtChar p s = some (before, rest)) : ∃ c, p c = true ∧ s = before ++ c :: rest := by
  unfold splitAtChar at h
  split at h
  · cases h
  · rename_i c behind hdrop
    cases h
    refine ⟨c, ?_, ?_⟩
    · have hhead := head_dropWhile_not (fun c => !p c) (l := s) (by simp [hdrop])
      simpa [hdrop] using hhead
    · rw [← hdrop, takeWhile_append_dropWhile]

/-- The piece before a separator does not hold it. -/
theorem splitAtChar_before (h : splitAtChar p s = some (before, rest)) : ∀ x ∈ before, p x = false := by
  intro x hx
  unfold splitAtChar at h
  split at h
  · cases h
  · cases h
    simpa using mem_takeWhile_imp hx

/-- A text without whitespace at its ends. -/
theorem trim_eq_self (hhead : ∀ x ∈ s.head?, isWhitespace x = false)
    (hlast : ∀ x ∈ s.getLast?, isWhitespace x = false) : trim s = s := by
  have hdrop : ∀ {t : Text}, (∀ x ∈ t.head?, isWhitespace x = false) → t.dropWhile isWhitespace = t := by
    intro t ht
    rcases t with _ | ⟨x, t⟩
    · rfl
    · rw [dropWhile_cons_of_neg (by simpa using ht x rfl)]
  unfold trim
  rw [hdrop hhead, hdrop (by simpa using hlast), reverse_reverse]

/-- The pieces are parts of the text. -/
theorem mem_of_splitn {n : ℕ} {separator : Char} {piece : Text} (h : piece ∈ splitn n separator s)
    {c : Char} (hc : c ∈ piece) : c ∈ s := by
  induction n generalizing s with
  | zero => cases h
  | succ n ih =>
    rcases n with _ | n
    · rw [splitn, mem_singleton] at h
      rwa [h] at hc
    · rw [splitn] at h
      split at h
      · rename_i before behind hsplit
        obtain ⟨x, -, hs⟩ := splitAtChar_eq hsplit
        rw [hs, mem_append, mem_cons]
        rcases mem_cons.mp h with rfl | h
        · exact .inl hc
        · exact .inr (.inr (ih h))
      · rw [mem_singleton] at h
        rwa [h] at hc

/-- The characters of a trimmed text are characters of the text. -/
theorem mem_of_trim {c : Char} (h : c ∈ trim s) : c ∈ s := by
  unfold trim at h
  rw [mem_reverse] at h
  have hback := (dropWhile_sublist _).subset h
  rw [mem_reverse] at hback
  exact (dropWhile_sublist _).subset hback

/-- No piece holds the separator. -/
theorem not_mem_of_mem_splitOn {separator : Char} {piece : Text} (h : piece ∈ s.splitOn separator) :
    separator ∉ piece := by
  induction s generalizing piece with
  | nil =>
    rw [splitOn_nil, mem_singleton] at h
    simp [h]
  | cons x s ih =>
    rw [splitOn_cons_eq_if_modifyHead] at h
    split at h
    · rcases mem_cons.mp h with rfl | h
      · simp
      · exact ih h
    · rename_i hx
      rcases hs : s.splitOn separator with _ | ⟨first, pieces⟩
      · rw [hs] at h
        cases h
      · rw [hs] at h
        rcases mem_cons.mp h with rfl | h
        · have hfirst := @ih first (by simp [hs])
          simp only [beq_iff_eq] at hx
          simp [hfirst, Ne.symm hx]
        · exact ih (hs ▸ mem_cons_of_mem _ h)

/-- The pieces are parts of the text. -/
theorem mem_of_mem_splitOn {separator c : Char} {piece : Text} (h : piece ∈ s.splitOn separator) (hc : c ∈ piece) :
    c ∈ s := by
  induction s generalizing piece with
  | nil =>
    rw [splitOn_nil, mem_singleton] at h
    rwa [h] at hc
  | cons x s ih =>
    rw [splitOn_cons_eq_if_modifyHead] at h
    split at h
    · rcases mem_cons.mp h with rfl | h
      · cases hc
      · exact mem_cons_of_mem _ (ih h hc)
    · rcases hs : s.splitOn separator with _ | ⟨first, pieces⟩
      · rw [hs] at h
        cases h
      · rw [hs] at h ih
        rcases mem_cons.mp h with rfl | h
        · rcases mem_cons.mp hc with rfl | hc
          · exact mem_cons_self
          · exact mem_cons_of_mem _ (ih mem_cons_self hc)
        · exact mem_cons_of_mem _ (ih (mem_cons_of_mem _ h) hc)

/-- No line holds a line end. -/
theorem not_mem_of_mem_lines {l : Text} (h : l ∈ lines s) : '\n' ∉ l := by
  unfold lines at h
  rcases mem_append.mp h with h | h
  · obtain ⟨piece, hpiece, rfl⟩ := mem_map.mp h
    have hnot := not_mem_of_mem_splitOn ((dropLast_sublist _).subset hpiece)
    unfold stripCr
    split
    · exact fun hmem => hnot ((dropLast_sublist _).subset hmem)
    · exact hnot
  · split at h
    · cases h
    · rename_i piece hlast
      split at h
      · cases h
      · rw [mem_singleton.mp h]
        exact not_mem_of_mem_splitOn (mem_of_getLast? hlast)

/-- Between separators there is none. -/
theorem splitn_three {separator : Char} {a b d : Text} (h : splitn 3 separator s = [a, b, d]) :
    separator ∉ a ∧ separator ∉ b := by
  have hbefore : ∀ {t before behind : Text}, splitAtChar (· = separator) t = some (before, behind) →
      separator ∉ before := fun hsplit hmem => by
    simpa using splitAtChar_before hsplit separator hmem
  rw [splitn] at h
  split at h
  · rename_i hfirst
    rw [splitn] at h
    split at h
    · rename_i hsecond
      cases h
      exact ⟨hbefore hfirst, hbefore hsecond⟩
    · cases h
  · cases h

theorem rsplitAtChar_append (hrest : ∀ x ∈ rest, p x = false) (hc : p c = true) :
    rsplitAtChar p (s ++ c :: rest) = some (s, c, rest) := by
  have hstop := @takeWhile_append_stop (fun c => !p c) rest.reverse (c :: s.reverse)
    (fun x hx => by simp [hrest x (mem_reverse.mp hx)]) (fun x hx => by cases hx; simp [hc])
  unfold rsplitAtChar
  rw [reverse_append, reverse_cons, append_assoc, singleton_append, hstop.1, hstop.2]
  simp

/-- The piece behind the last separator does not hold it. -/
theorem rsplitAtChar_behind (h : rsplitAtChar p s = some (before, c, rest)) : ∀ x ∈ rest, p x = false := by
  intro x hx
  unfold rsplitAtChar at h
  split at h
  · cases h
  · cases h
    simpa using mem_takeWhile_imp (mem_reverse.mp hx)

end

theorem parseBelow_decimal {bound n : ℕ} (h : n < bound) : parseBelow bound (decimal n) = some n := by
  obtain ⟨c, rest, hd, hc⟩ := decimal_cases n
  have hdigits := parseDigits_decimal n
  unfold parseBelow
  rw [hd] at hdigits ⊢
  split
  · rename_i heq
    exact absurd (head_eq_of_cons_eq heq) (ne_of_isDigit hc).1
  · simp only [hdigits, Option.bind_some, if_pos h]

end Imbh.Lib
