import Mathlib.Data.List.Forall2
import Imbh.Core.JsonScan
import Imbh.Lib.Hex

/-!
# The texts of JSON documents

`JsonText` says which texts are the JSON of a tree: the grammar without insignificant whitespace, which is how the
documents here are written. What a number is read as is the library's.
-/

namespace Imbh.Core

open Lib List

/-! ## Strings -/

/-- A character that a string has as it is. -/
def isPlain (c : Char) : Bool := c ≠ '"' && c ≠ '\\' && 0x20 ≤ c.toNat

/-- The character of an escape of two. -/
def unescape (e : Char) : Option Char :=
  if e = '"' ∨ e = '\\' ∨ e = '/' then some e
  else if e = 'b' then some '\x08'
  else if e = 'f' then some '\x0c'
  else if e = 'n' then some '\n'
  else if e = 'r' then some '\r'
  else if e = 't' then some '\t'
  else none

/-- The character of an escape by its number; half a surrogate pair is no character. -/
def hexEscape : Text → Option (Char × Text)
  | a :: b :: c :: d :: rest => do
      let a ← hexValue a
      let b ← hexValue b
      let c ← hexValue c
      let d ← hexValue d
      let n := ((a * 16 + b) * 16 + c) * 16 + d
      if n.isValidChar then some (Char.ofNat n, rest) else none
  | _ => none

/-- The first character of what is left of a string. -/
def readChar : Text → Option (Char × Text)
  | [] => none
  | c :: rest =>
      if isPlain c then some (c, rest)
      else if c = '\\' then
        match rest with
        | 'u' :: digits => hexEscape digits
        | e :: rest => (unescape e).map (·, rest)
        | [] => none
      else none

/-- The text of a character in a string. -/
def CharText (c : Char) (t : Text) : Prop := ∀ rest, readChar (t ++ rest) = some (c, rest)

/-- The text of a string. -/
def StringText (s t : Text) : Prop := ∃ pieces, List.Forall₂ CharText s pieces ∧ t = '"' :: (pieces.flatten ++ ['"'])

/-- The rest of a string after its first quote. -/
def readString : ℕ → Text → Option (Text × Text)
  | 0, _ => none
  | fuel + 1, t =>
      if t.head? = some '"' then some ([], t.tail)
      else
        match readChar t with
        | some (c, rest) => (readString fuel rest).map fun r => (c :: r.1, r.2)
        | none => none

theorem head?_charText {c : Char} {t : Text} (h : CharText c t) (rest : Text) :
    (t ++ rest).head? ≠ some '"' := by
  intro hhead
  have hread := h rest
  generalize t ++ rest = read at hhead hread
  rcases read with _ | ⟨c', rest'⟩
  · simp at hhead
  · obtain rfl : c' = '"' := by simpa using hhead
    simp [readChar, isPlain] at hread

theorem charText_pos {c : Char} {t : Text} (h : CharText c t) : 0 < t.length := by
  rcases t with _ | ⟨c', t⟩
  · exact absurd (h []) (by simp [readChar])
  · exact Nat.succ_pos _

/-- The characters of a string are read up to its quote. -/
theorem readString_eq {s : Text} {pieces : List Text} (h : List.Forall₂ CharText s pieces) (rest : Text) {fuel : ℕ}
    (hfuel : pieces.flatten.length < fuel) : readString fuel (pieces.flatten ++ '"' :: rest) = some (s, rest) := by
  induction h generalizing fuel with
  | nil =>
    obtain ⟨fuel, rfl⟩ := Nat.exists_eq_succ_of_ne_zero (by omega : fuel ≠ 0)
    simp [readString]
  | @cons c t s pieces hc _ ih =>
    obtain ⟨fuel, rfl⟩ := Nat.exists_eq_succ_of_ne_zero (by omega : fuel ≠ 0)
    rw [flatten_cons, length_append] at hfuel
    have hpos := charText_pos hc
    have hrest := @ih fuel (by omega)
    rw [flatten_cons, append_assoc, readString, if_neg (head?_charText hc _), hc]
    simp [hrest]

theorem charText_plain {c : Char} (h : isPlain c = true) : CharText c [c] := by
  intro rest
  simp [readChar, h]

/-- A text without quotes and escapes is its own string. -/
theorem stringText_plain {s : Text} (h : ∀ c ∈ s, isPlain c = true) : StringText s ('"' :: (s ++ ['"'])) := by
  refine ⟨s.map fun c => [c], ?_, ?_⟩
  · rw [List.forall₂_map_right_iff, List.forall₂_same]
    exact fun c hc => charText_plain (h c hc)
  · have hflat : (s.map fun c => [c]).flatten = s := by
      induction s with
      | nil => rfl
      | cons c s ih => simpa using ih fun c hc => h c (mem_cons_of_mem _ hc)
    rw [hflat]

/-! ## Documents -/

/-- A character of a number. -/
def isNumberChar (c : Char) : Bool := c.isDigit || c = '-' || c = '+' || c = '.' || c = 'e' || c = 'E'

/-- Texts with commas between them. -/
def commas (ts : List Text) : Text := [','].intercalate ts

theorem commas_cons_cons (t t' : Text) (ts : List Text) : commas (t :: t' :: ts) = t ++ ',' :: commas (t' :: ts) := by
  simp [commas, List.intercalate]

@[simp] theorem commas_singleton (t : Text) : commas [t] = t := by simp [commas, List.intercalate]

section

-- What the library reads a number as.
variable (number : Text → Option Json)

def NumberText (j : Json) (t : Text) : Prop := t ≠ [] ∧ (∀ c ∈ t, isNumberChar c = true) ∧ number t = some j

mutual

/-- The text is the JSON of the tree. -/
def JsonText : Json → Text → Prop
  | .null, t => t = "null".toList
  | .bool b, t => t = (if b then "true" else "false").toList
  | .i64 v, t => NumberText number (.i64 v) t
  | .u64 v, t => NumberText number (.u64 v) t
  | .f64 v, t => NumberText number (.f64 v) t
  | .str s, t => StringText s t
  | .seq items, t => ∃ ts, ItemTexts items ts ∧ t = '[' :: (commas ts ++ [']'])
  | .map members, t => ∃ ts, MemberTexts members ts ∧ t = '\x7b' :: (commas ts ++ ['\x7d'])

def ItemTexts : List Json → List Text → Prop
  | [], ts => ts = []
  | j :: js, ts => ∃ t ts', ts = t :: ts' ∧ JsonText j t ∧ ItemTexts js ts'

def MemberTexts : List (Text × Json) → List Text → Prop
  | [], ts => ts = []
  | (k, j) :: ms, ts => ∃ q t ts', ts = (q ++ ':' :: t) :: ts' ∧ StringText k q ∧ JsonText j t ∧ MemberTexts ms ts'

end

mutual

/-- How many arrays and objects are around the innermost value, with it. -/
def Json.depth : Json → ℕ
  | .seq items => 1 + itemsDepth items
  | .map members => 1 + membersDepth members
  | _ => 0

def itemsDepth : List Json → ℕ
  | [] => 0
  | j :: js => max j.depth (itemsDepth js)

def membersDepth : List (Text × Json) → ℕ
  | [] => 0
  | (_, j) :: ms => max j.depth (membersDepth ms)

end

/-- The library reads a text of a tree as the tree, up to its recursion limit. -/
def Reads (reader : JsonReader) : Prop :=
  ∀ j t, JsonText number j t → reader.document t = if j.depth < Tokeniser.recursionLimit then some j else none

/-! ## A reader -/

mutual

/-- The value at the start of a text, and the text after it. -/
def readValue : ℕ → Text → Option (Json × Text)
  | 0, _ => none
  | _ + 1, [] => none
  | fuel + 1, c :: rest =>
      if c = '"' then (readString (rest.length + 1) rest).map fun r => (.str r.1, r.2)
      else if c = '[' then
        if rest.head? = some ']' then some (.seq [], rest.tail) else (readItems fuel rest).map fun r => (.seq r.1, r.2)
      else if c = '\x7b' then
        if rest.head? = some '\x7d' then some (.map [], rest.tail)
        else (readMemberTexts fuel rest).map fun r => (.map r.1, r.2)
      else if c = 'n' then if rest.take 3 = "ull".toList then some (.null, rest.drop 3) else none
      else if c = 't' then if rest.take 3 = "rue".toList then some (.bool true, rest.drop 3) else none
      else if c = 'f' then if rest.take 4 = "alse".toList then some (.bool false, rest.drop 4) else none
      else (number ((c :: rest).takeWhile isNumberChar)).map (·, (c :: rest).dropWhile isNumberChar)

def readItems : ℕ → Text → Option (List Json × Text)
  | 0, _ => none
  | fuel + 1, t =>
      match readValue fuel t with
      | some (j, c :: rest) =>
          if c = ',' then (readItems fuel rest).map fun r => (j :: r.1, r.2)
          else if c = ']' then some ([j], rest)
          else none
      | _ => none

def readMemberTexts : ℕ → Text → Option (List (Text × Json) × Text)
  | 0, _ => none
  | _ + 1, [] => none
  | fuel + 1, q :: t =>
      match readString (t.length + 1) t with
      | some (k, colon :: rest) =>
          if q = '"' ∧ colon = ':' then
            match readValue fuel rest with
            | some (j, c :: rest) =>
                if c = ',' then (readMemberTexts fuel rest).map fun r => ((k, j) :: r.1, r.2)
                else if c = '\x7d' then some ([(k, j)], rest)
                else none
            | _ => none
          else none
      | _ => none

end

/-- The tree of a whole text. -/
def readJson (t : Text) : Option Json :=
  match readValue number t.length t with
  | some (j, []) => some j
  | _ => none

/-- What follows a value. -/
def Delimited (rest : Text) : Prop := ∀ c, rest.head? = some c → isNumberChar c = false

variable {number}

/-- A number ends where its delimiter stands. -/
theorem takeWhile_number {t rest : Text} (ht : ∀ c ∈ t, isNumberChar c = true) (hrest : Delimited rest) :
    (t ++ rest).takeWhile isNumberChar = t ∧ (t ++ rest).dropWhile isNumberChar = rest := by
  induction t with
  | nil =>
    cases rest with
    | nil => exact ⟨rfl, rfl⟩
    | cons c rest =>
      have hc := hrest c rfl
      simp [hc]
  | cons c t ih =>
    have hc := ht c mem_cons_self
    obtain ⟨htake, hdrop⟩ := ih fun c hc => ht c (mem_cons_of_mem _ hc)
    simp [hc, htake, hdrop]

/-- A number is read with what follows it left. -/
theorem readValue_number {j : Json} {t rest : Text} (h : NumberText number j t) (hrest : Delimited rest) {fuel : ℕ}
    (hfuel : t.length ≤ fuel) : readValue number fuel (t ++ rest) = some (j, rest) := by
  obtain ⟨hne, hchars, hnumber⟩ := h
  obtain ⟨c, t, rfl⟩ := exists_cons_of_ne_nil hne
  obtain ⟨fuel, rfl⟩ := Nat.exists_eq_succ_of_ne_zero (by simp at hfuel; omega : fuel ≠ 0)
  obtain ⟨htake, hdrop⟩ := takeWhile_number hchars hrest
  have hc := hchars c mem_cons_self
  have hother (d : Char) (hd : isNumberChar d = false) : c ≠ d := by
    rintro rfl
    rw [hd] at hc
    exact Bool.false_ne_true hc
  rw [cons_append] at htake hdrop ⊢
  rw [readValue, if_neg (hother _ (by decide)), if_neg (hother _ (by decide)), if_neg (hother _ (by decide)),
    if_neg (hother _ (by decide)), if_neg (hother _ (by decide)), if_neg (hother _ (by decide)), htake, hdrop, hnumber]
  rfl

theorem delimited_cons {c : Char} (h : isNumberChar c = false) (rest : Text) : Delimited (c :: rest) := by
  intro d hd
  obtain rfl : c = d := by simpa using hd
  exact h

/-- What a value starts with. -/
theorem JsonText.start {j : Json} {t : Text} (h : JsonText number j t) : ∃ c t', t = c :: t' ∧ c ≠ ']' := by
  have hnumber {j : Json} (h : NumberText number j t) : ∃ c t', t = c :: t' ∧ c ≠ ']' := by
    obtain ⟨c, t', rfl⟩ := exists_cons_of_ne_nil h.1
    refine ⟨c, t', rfl, ?_⟩
    rintro rfl
    exact absurd (h.2.1 ']' mem_cons_self) (by decide)
  cases j with
  | i64 v => exact hnumber h
  | u64 v => exact hnumber h
  | f64 v => exact hnumber h
  | null => exact ⟨'n', "ull".toList, h, by decide⟩
  | bool b =>
    obtain rfl : t = (if b then "true" else "false").toList := h
    cases b
    · exact ⟨'f', "alse".toList, rfl, by decide⟩
    · exact ⟨'t', "rue".toList, rfl, by decide⟩
  | str s =>
    obtain ⟨pieces, -, rfl⟩ := h
    exact ⟨'"', _, rfl, by decide⟩
  | seq items =>
    obtain ⟨ts, -, rfl⟩ := h
    exact ⟨'[', _, rfl, by decide⟩
  | map members =>
    obtain ⟨ts, -, rfl⟩ := h
    exact ⟨'\x7b', _, rfl, by decide⟩

theorem exists_succ {t : Text} {fuel : ℕ} {c : Char} {t' : Text} (ht : t = c :: t') (h : t.length ≤ fuel) :
    ∃ fuel', fuel = fuel' + 1 ∧ t'.length ≤ fuel' := by
  subst ht
  rw [length_cons] at h
  exact ⟨fuel - 1, by omega, by omega⟩

theorem head?_items {j : Json} {js : List Json} {ts : List Text} (h : ItemTexts number (j :: js) ts) (rest : Text) :
    (commas ts ++ rest).head? ≠ some ']' := by
  obtain ⟨t, ts', rfl, ht, -⟩ := h
  obtain ⟨c, t', rfl, hc⟩ := ht.start
  cases ts' <;> simpa [commas, List.intercalate] using hc

theorem head?_members {m : Text × Json} {ms : List (Text × Json)} {ts : List Text} (h : MemberTexts number (m :: ms) ts)
    (rest : Text) : (commas ts ++ rest).head? ≠ some '\x7d' := by
  obtain ⟨q, t, ts', rfl, ⟨pieces, -, rfl⟩, -⟩ := h
  cases ts' <;> simp [commas, List.intercalate]

mutual

/-- The reader reads a text of a tree as the tree, whatever follows it. -/
theorem readValue_eq (j : Json) {t : Text} (h : JsonText number j t) {rest : Text} (hrest : Delimited rest) {fuel : ℕ}
    (hfuel : t.length ≤ fuel) : readValue number fuel (t ++ rest) = some (j, rest) := by
  cases j with
  | i64 v => exact readValue_number h hrest hfuel
  | u64 v => exact readValue_number h hrest hfuel
  | f64 v => exact readValue_number h hrest hfuel
  | null =>
    obtain rfl : t = "null".toList := h
    obtain ⟨fuel, rfl, -⟩ := exists_succ rfl hfuel
    simp [readValue]
  | bool b =>
    obtain rfl : t = (if b then "true" else "false").toList := h
    cases b
    · obtain ⟨fuel, rfl, -⟩ := exists_succ rfl hfuel
      simp [readValue]
    · obtain ⟨fuel, rfl, -⟩ := exists_succ rfl hfuel
      simp [readValue]
  | str s =>
    obtain ⟨pieces, hpieces, rfl⟩ := h
    obtain ⟨fuel, rfl, -⟩ := exists_succ rfl hfuel
    rw [cons_append, append_assoc, singleton_append, readValue, if_pos rfl, readString_eq hpieces]
    · rfl
    · rw [length_append]
      omega
  | seq items =>
    obtain ⟨ts, hts, rfl⟩ := h
    obtain ⟨fuel, rfl, hfuel⟩ := exists_succ rfl hfuel
    rw [cons_append, append_assoc, singleton_append, readValue, if_neg (by decide), if_pos rfl]
    cases items with
    | nil =>
      obtain rfl : ts = [] := hts
      rfl
    | cons j js =>
      rw [if_neg (head?_items hts _), readItems_eq (j :: js) (cons_ne_nil j js) hts]
      · rfl
      · simp at hfuel
        omega
  | map members =>
    obtain ⟨ts, hts, rfl⟩ := h
    obtain ⟨fuel, rfl, hfuel⟩ := exists_succ rfl hfuel
    rw [cons_append, append_assoc, singleton_append, readValue, if_neg (by decide), if_neg (by decide),
      if_pos rfl]
    cases members with
    | nil =>
      obtain rfl : ts = [] := hts
      rfl
    | cons m ms =>
      rw [if_neg (head?_members hts _), readMemberTexts_eq (m :: ms) (cons_ne_nil m ms) hts]
      · rfl
      · simp at hfuel
        omega

/-- The items of an array are read up to its bracket. -/
theorem readItems_eq (items : List Json) (hne : items ≠ []) {ts : List Text} (h : ItemTexts number items ts)
    {rest : Text} {fuel : ℕ} (hfuel : (commas ts).length < fuel) :
    readItems number fuel (commas ts ++ ']' :: rest) = some (items, rest) := by
  cases items with
  | nil => exact absurd rfl hne
  | cons j js =>
    obtain ⟨t, ts', rfl, ht, hts⟩ := h
    obtain ⟨fuel, rfl⟩ := Nat.exists_eq_succ_of_ne_zero (by omega : fuel ≠ 0)
    cases js with
    | nil =>
      obtain rfl : ts' = [] := hts
      rw [commas_singleton] at hfuel ⊢
      rw [readItems, readValue_eq j ht (delimited_cons (by decide) rest) (Nat.lt_succ_iff.mp hfuel)]
      rfl
    | cons j' js' =>
      obtain ⟨t', ts'', rfl, ht', hts'⟩ := id hts
      rw [commas_cons_cons, length_append, length_cons] at hfuel
      rw [commas_cons_cons, append_assoc, cons_append, readItems,
        readValue_eq j ht (delimited_cons (by decide) _) (by omega)]
      dsimp only
      rw [if_pos rfl, readItems_eq (j' :: js') (cons_ne_nil j' js') hts (by omega)]
      rfl

/-- The members of an object are read up to its brace. -/
theorem readMemberTexts_eq (members : List (Text × Json)) (hne : members ≠ []) {ts : List Text}
    (h : MemberTexts number members ts) {rest : Text} {fuel : ℕ} (hfuel : (commas ts).length < fuel) :
    readMemberTexts number fuel (commas ts ++ '\x7d' :: rest) = some (members, rest) := by
  cases members with
  | nil => exact absurd rfl hne
  | cons m ms =>
    obtain ⟨k, j⟩ := m
    obtain ⟨q, t, ts', rfl, ⟨pieces, hpieces, rfl⟩, ht, hts⟩ := h
    obtain ⟨fuel, rfl⟩ := Nat.exists_eq_succ_of_ne_zero (by omega : fuel ≠ 0)
    -- the key and the colon, whatever follows
    have hkey (more : Text) : ('"' :: (pieces.flatten ++ ['"']) ++ ':' :: t) ++ more =
        '"' :: (pieces.flatten ++ '"' :: ':' :: (t ++ more)) := by simp
    have hread (more : Text) : readString ((pieces.flatten ++ '"' :: ':' :: (t ++ more)).length + 1)
        (pieces.flatten ++ '"' :: ':' :: (t ++ more)) = some (k, ':' :: (t ++ more)) := by
      apply readString_eq hpieces
      rw [length_append]
      omega
    cases ms with
    | nil =>
      obtain rfl : ts' = [] := hts
      rw [commas_singleton] at hfuel ⊢
      rw [hkey, readMemberTexts, hread]
      dsimp only
      rw [if_pos ⟨rfl, rfl⟩, readValue_eq j ht (delimited_cons (by decide) rest) (by simp at hfuel; omega)]
      rfl
    | cons m' ms' =>
      obtain ⟨k', j'⟩ := m'
      obtain ⟨q', t', ts'', rfl, hq', ht', hts'⟩ := id hts
      rw [commas_cons_cons, length_append, length_cons] at hfuel
      rw [commas_cons_cons, append_assoc, hkey, readMemberTexts, hread]
      dsimp only
      rw [if_pos ⟨rfl, rfl⟩, cons_append, readValue_eq j ht (delimited_cons (by decide) _) (by simp at hfuel; omega)]
      dsimp only
      rw [if_pos rfl, readMemberTexts_eq ((k', j') :: ms') (cons_ne_nil _ ms') hts (by omega)]
      rfl

end

/-- It reads every text of a tree as the tree, so that a text is of one tree. -/
theorem readJson_eq {j : Json} {t : Text} (h : JsonText number j t) : readJson number t = some j := by
  have hread := readValue_eq j h (show Delimited [] by simp [Delimited]) le_rfl
  rw [append_nil] at hread
  rw [readJson, hread]

end

end Imbh.Core
