import Mathlib.Data.Char
import Mathlib.Data.List.Lex
import Imbh.Lib.Bytes

/-!
# Text in lines and fields

A text is a list of characters. `lines` and `fields` take one apart as Rust's `str::lines` and
`str::split` do; `decimal` and the two parsers are its integers; `encodeText` and `decodeText` are
UTF-8. For each there is the lemma that reads back what was written.
-/

namespace Imbh.Lib

open List Option

/-- A text. -/
abbrev Text : Type := List Char

instance : LawfulBEq Text := inferInstanceAs (LawfulBEq (List Char))

/-! ## UTF-8 -/

/-- The bytes of a text. -/
def encodeText (s : Text) : Bytes := (String.ofList s).toUTF8.data.toList

/-- The text of a byte string, when it is UTF-8. -/
def decodeText (b : Bytes) : Option Text :=
  (String.fromUTF8? (ByteArray.mk b.toArray)).map String.toList

@[simp] theorem decodeText_encodeText (s : Text) : decodeText (encodeText s) = some s := by
  have hvalid : (String.ofList s).toUTF8.IsValidUTF8 := (String.ofList s).isValidUTF8
  unfold decodeText encodeText String.fromUTF8?
  simp only [Array.toArray_toList, dif_pos hvalid, map_some]
  exact congrArg some String.toList_ofList

/-- What is read as a text is what the text is written as. -/
theorem encodeText_of_decodeText {b : Bytes} {s : Text} (h : decodeText b = some s) :
    encodeText s = b := by
  unfold decodeText String.fromUTF8? at h
  split at h
  · obtain rfl := some.inj h
    rw [encodeText, String.ofList_toList]
    rfl
  · exact absurd h (by simp)

/-! ## Lines and fields -/

/-- The end of a line without the carriage return of a `"\r\n"`. -/
def stripCr (l : Text) : Text := if l.getLast? = some '\r' then l.dropLast else l

/-- `str::lines`: a line ends at `'\n'` or at `"\r\n"`, and the last one may have no end. -/
def lines (s : Text) : List Text :=
  let parts := s.splitOn '\n'
  parts.dropLast.map stripCr ++
    match parts.getLast? with
    | none => []
    | some l => if l.isEmpty then [] else [l]

/-- A text whose every line has its end. -/
def unlines (ls : List Text) : Text := ls.flatMap fun l => l ++ ['\n']

theorem lines_nil : lines [] = [] := by simp [lines]

theorem lines_cons {l rest : Text} (h : '\n' ∉ l) :
    lines (l ++ '\n' :: rest) = stripCr l :: lines rest := by
  unfold lines
  rw [splitOn_append_cons_self_of_not_mem h]
  have hne := splitOn_ne_nil '\n' rest
  simp only [dropLast_cons_of_ne_nil hne, map_cons, cons_append,
    getLast?_cons_of_ne_nil hne]

/-- A line that can be written: it holds no line end, and no carriage return stands before its
end. -/
def LineOk (l : Text) : Prop := '\n' ∉ l ∧ l.getLast? ≠ some '\r'

theorem stripCr_eq_self_iff {l : Text} : stripCr l = l ↔ l.getLast? ≠ some '\r' := by
  unfold stripCr
  split
  · rename_i hcr
    refine iff_of_false (fun h => ?_) (not_not.mpr hcr)
    have hlen := congrArg List.length h
    have hne : l ≠ [] := by
      rintro rfl
      cases hcr
    rw [length_dropLast] at hlen
    have hpos := length_pos_iff.mpr hne
    omega
  · rename_i hcr
    simp [hcr]

theorem map_stripCr_iff {ls : List Text} : ls.map stripCr = ls ↔ ∀ l ∈ ls, l.getLast? ≠ some '\r' := by
  induction ls with
  | nil => simp
  | cons l ls ih => rw [map_cons, List.cons.injEq, ih, stripCr_eq_self_iff, forall_mem_cons]

/-- Lines are read back but for the carriage returns at their ends. -/
theorem lines_unlines_map {ls : List Text} (h : ∀ l ∈ ls, '\n' ∉ l) : lines (unlines ls) = ls.map stripCr := by
  induction ls with
  | nil => exact lines_nil
  | cons l ls ih =>
      have hcons : unlines (l :: ls) = l ++ '\n' :: unlines ls := by simp [unlines]
      rw [hcons, lines_cons (h l mem_cons_self), ih fun x hx => h x (mem_cons_of_mem _ hx), map_cons]

/-- Lines are read back. -/
theorem lines_unlines {ls : List Text} (h : ∀ l ∈ ls, LineOk l) : lines (unlines ls) = ls := by
  rw [lines_unlines_map fun l hl => (h l hl).1, map_stripCr_iff]
  exact fun l hl => (h l hl).2

/-- `split('\t')`. -/
def fields (l : Text) : List Text := l.splitOn '\t'

/-- Fields with tabs between them. -/
def unfields (fs : List Text) : Text := ['\t'].intercalate fs

variable {fs : List Text}

theorem fields_unfields (h : ∀ f ∈ fs, '\t' ∉ f) (hne : fs ≠ []) : fields (unfields fs) = fs :=
  splitOn_intercalate '\t' h hne

/-- A carriage return at the end of a line is one at the end of its last field. -/
theorem stripCr_unfields (a b : Text) : stripCr (unfields [a, b]) = unfields [a, stripCr b] := by
  have hline (x : Text) : unfields [a, x] = a ++ '\t' :: x := by simp [unfields, List.intercalate]
  rw [hline, hline]
  rcases b.eq_nil_or_concat' with rfl | ⟨init, c, rfl⟩
  · have hnil : stripCr [] = [] := rfl
    rw [hnil, stripCr_eq_self_iff]
    simp
  · have hassoc : a ++ '\t' :: (init ++ [c]) = (a ++ '\t' :: init) ++ [c] := by simp
    rw [hassoc]
    unfold stripCr
    rw [getLast?_concat, getLast?_concat, dropLast_concat, dropLast_concat]
    split
    · rfl
    · exact hassoc.symm

variable {c : Char}

/-- A character of pieces that are put together is a separator or in a piece. -/
theorem mem_intercalate {separator : Char} (h : c ∈ [separator].intercalate fs) :
    c = separator ∨ ∃ f ∈ fs, c ∈ f := by
  induction fs with
  | nil => cases h
  | cons f fs ih =>
      rcases fs with _ | ⟨g, fs⟩
      · exact .inr ⟨f, mem_cons_self, by simpa using h⟩
      · rw [intercalate_cons_cons, append_assoc] at h
        rcases mem_append.mp h with h | h
        · exact .inr ⟨f, mem_cons_self, h⟩
        rcases mem_append.mp h with h | h
        · exact .inl (mem_singleton.mp h)
        rcases ih h with h | ⟨x, hx, hc⟩
        · exact .inl h
        · exact .inr ⟨x, mem_cons_of_mem _ hx, hc⟩

theorem mem_intercalate_of_mem {separator : Char} {f : Text} (hf : f ∈ fs) (hc : c ∈ f) :
    c ∈ [separator].intercalate fs := by
  induction fs with
  | nil => cases hf
  | cons g fs ih =>
      rcases fs with _ | ⟨g', fs⟩
      · obtain rfl := mem_singleton.mp hf
        simpa using hc
      · rw [intercalate_cons_cons, append_assoc, mem_append]
        rcases mem_cons.mp hf with rfl | hf
        · exact .inl hc
        · exact .inr (mem_append_right _ (ih hf))

theorem mem_unfields (h : c ∈ unfields fs) : c = '\t' ∨ ∃ f ∈ fs, c ∈ f :=
  mem_intercalate h

/-- The last character of fields is that of the last one. -/
theorem getLast?_unfields (hc : c ≠ '\t') (h : (unfields fs).getLast? = some c) :
    ∃ f, fs.getLast? = some f ∧ f.getLast? = some c := by
  unfold unfields at h
  induction fs with
  | nil => cases h
  | cons f fs ih =>
      rcases fs with _ | ⟨g, fs⟩
      · exact ⟨f, rfl, by simpa using h⟩
      · rw [intercalate_cons_cons, getLast?_append] at h
        rcases hrest : (['\t'].intercalate (g :: fs)).getLast? with _ | x
        · rw [hrest, none_or, getLast?_concat] at h
          exact absurd (some.inj h).symm hc
        · rw [hrest, some_or] at h
          rw [getLast?_cons_cons]
          exact ih (hrest.trans h)

/-- A line of fields. -/
theorem lineOk_unfields (h : ∀ f ∈ fs, '\n' ∉ f) (hlast : ∀ f ∈ fs.getLast?, f.getLast? ≠ some '\r') :
    LineOk (unfields fs) := by
  refine ⟨fun hmem => ?_, fun hcr => ?_⟩
  · rcases mem_unfields hmem with heq | ⟨f, hf, hc⟩
    · exact absurd heq (by decide)
    · exact h f hf hc
  · obtain ⟨f, hf, hc⟩ := getLast?_unfields (by decide) hcr
    exact hlast f hf hc

/-- `char::is_whitespace`. -/
def isWhitespace (c : Char) : Bool :=
  let n := c.toNat
  (9 ≤ n && n ≤ 13) || n == 0x20 || n == 0x85 || n == 0xA0 || n == 0x1680 ||
    (0x2000 ≤ n && n ≤ 0x200A) || n == 0x2028 || n == 0x2029 || n == 0x202F || n == 0x205F ||
    n == 0x3000

/-- `str::trim`. -/
def trim (s : Text) : Text := ((s.dropWhile isWhitespace).reverse.dropWhile isWhitespace).reverse

/-- A text without whitespace at its ends, and one more character of it behind. -/
theorem trim_concat {s : Text} (hc : isWhitespace c = true) (hhead : ∀ x ∈ s.head?, isWhitespace x = false)
    (hlast : ∀ x ∈ s.getLast?, isWhitespace x = false) (hne : s ≠ []) : trim (s ++ [c]) = s := by
  have hdrop : ∀ {t : Text}, (∀ x ∈ t.head?, isWhitespace x = false) → t.dropWhile isWhitespace = t := by
    intro t ht
    rcases t with _ | ⟨x, t⟩
    · rfl
    · rw [dropWhile_cons_of_neg (by simpa using ht x rfl)]
  have hfront : (s ++ [c]).dropWhile isWhitespace = s ++ [c] := by
    refine hdrop fun x hx => hhead x ?_
    rcases s with _ | ⟨y, s⟩
    · exact absurd rfl hne
    · exact hx
  have hback : (c :: s.reverse).dropWhile isWhitespace = s.reverse := by
    rw [dropWhile_cons_of_pos hc]
    exact hdrop (by simpa using hlast)
  unfold trim
  rw [hfront, reverse_append, reverse_singleton, singleton_append, hback,
    reverse_reverse]

/-- A prefix is stripped. -/
theorem isPrefixOf?_append (p s : Text) : p.isPrefixOf? (p ++ s) = some s := by
  induction p with
  | nil => rfl
  | cons c p ih =>
      show (if c == c then p.isPrefixOf? (p ++ s) else none) = some s
      rw [if_pos (beq_self_eq_true c), ih]

/-! ## Integers -/

/-- The decimal digits of a number. -/
def decimal (n : ℕ) : Text := Nat.toDigits 10 n

/-- A number of decimal digits. -/
def parseDigits (s : Text) : Option ℕ :=
  if s ≠ [] ∧ s.all Char.isDigit then some (Nat.ofDigitChars 10 s 0) else none

theorem isAlphanum_range (h : c.isAlphanum = true) :
    (65 ≤ c.toNat ∧ c.toNat ≤ 90 ∨ 97 ≤ c.toNat ∧ c.toNat ≤ 122) ∨ 48 ≤ c.toNat ∧ c.toNat ≤ 57 := by
  rcases Bool.or_eq_true_iff.mp h with halpha | hdigit
  · rcases Bool.or_eq_true_iff.mp halpha with hupper | hlower
    · exact .inl (.inl (of_decide_eq_true hupper))
    · obtain ⟨hlo, hhi⟩ := Bool.and_eq_true_iff.mp hlower
      exact .inl (.inr ⟨of_decide_eq_true hlo, of_decide_eq_true hhi⟩)
  · exact .inr (Char.isDigit_iff_toNat.mp hdigit)

theorem isDigit_of_mem_decimal {n : ℕ} (h : c ∈ decimal n) : c.isDigit = true :=
  Nat.isDigit_of_mem_toDigits (by omega) le_rfl h

theorem not_isWhitespace_of_isDigit (h : c.isDigit = true) : isWhitespace c = false := by
  unfold Char.isDigit at h
  simp only [Bool.and_eq_true, decide_eq_true_eq] at h
  have hlo : 48 ≤ c.toNat := h.1
  have hhi : c.toNat ≤ 57 := h.2
  unfold isWhitespace
  simp
  omega

theorem decimal_ne_nil (n : ℕ) : decimal n ≠ [] := Nat.toDigits_ne_nil

theorem parseDigits_decimal (n : ℕ) : parseDigits (decimal n) = some n := by
  unfold parseDigits
  have hall : (decimal n).all Char.isDigit = true :=
    all_eq_true.mpr fun c hc => isDigit_of_mem_decimal hc
  rw [if_pos ⟨decimal_ne_nil n, hall⟩]
  exact congrArg some Nat.ofDigitChars_ten_toDigits

/-- `parse::<u64>`: an optional plus sign and digits, in range. -/
def parseU64 (s : Text) : Option UInt64 :=
  let digits :=
    match s with
    | '+' :: rest => rest
    | _ => s
  (parseDigits digits).bind fun n => if n < 2 ^ 64 then some (UInt64.ofNat n) else none

/-- `parse::<i64>`: an optional sign and digits, in range. -/
def parseI64 (s : Text) : Option Int64 :=
  match s with
  | '-' :: rest => (parseDigits rest).bind fun n => if n ≤ 2 ^ 63 then some (Int64.ofInt (-n)) else none
  | '+' :: rest => (parseDigits rest).bind fun n => if n < 2 ^ 63 then some (Int64.ofInt n) else none
  | _ => (parseDigits s).bind fun n => if n < 2 ^ 63 then some (Int64.ofInt n) else none

/-- The text of a `u64`. -/
def textU64 (n : UInt64) : Text := decimal n.toNat

/-- The text of an `i64`. -/
def textI64 (z : Int64) : Text :=
  match z.toInt with
  | .ofNat n => decimal n
  | .negSucc n => '-' :: decimal (n + 1)

/-- The head of a decimal number is not a sign. -/
theorem decimal_cases (n : ℕ) : ∃ c rest, decimal n = c :: rest ∧ c.isDigit = true := by
  rcases hd : decimal n with _ | ⟨c, rest⟩
  · exact absurd hd (decimal_ne_nil n)
  · exact ⟨c, rest, rfl, isDigit_of_mem_decimal (hd ▸ mem_cons_self)⟩

theorem ne_of_isDigit (h : c.isDigit = true) : c ≠ '+' ∧ c ≠ '-' := by
  constructor
  · rintro rfl
    exact absurd h (by decide)
  · rintro rfl
    exact absurd h (by decide)

@[simp] theorem parseU64_textU64 (n : UInt64) : parseU64 (textU64 n) = some n := by
  have hdigits := parseDigits_decimal n.toNat
  obtain ⟨c, rest, hd, hc⟩ := decimal_cases n.toNat
  have hsign := ne_of_isDigit hc
  unfold parseU64 textU64
  rw [hd] at hdigits ⊢
  split
  · rename_i heq
    exact absurd (head_eq_of_cons_eq heq) hsign.1
  · simp only [hdigits, bind_some, if_pos n.toNat_lt]
    exact congrArg some UInt64.ofNat_toNat

/-- A number with leading zeros. -/
theorem parseU64_zeros (k : ℕ) {n : ℕ} (h : n < 2 ^ 64) :
    parseU64 (List.replicate k '0' ++ decimal n) = some (UInt64.ofNat n) := by
  have hdigit : ∀ c ∈ List.replicate k '0' ++ decimal n, c.isDigit = true := by
    intro c hc
    rcases mem_append.mp hc with hc | hc
    · rw [eq_of_mem_replicate hc]
      rfl
    · exact isDigit_of_mem_decimal hc
  have hne : List.replicate k '0' ++ decimal n ≠ [] :=
    append_ne_nil_of_right_ne_nil _ (decimal_ne_nil n)
  have hparse : parseDigits (List.replicate k '0' ++ decimal n) = some n := by
    unfold parseDigits
    rw [if_pos ⟨hne, all_eq_true.mpr hdigit⟩, Nat.ofDigitChars_append,
      Nat.ofDigitChars_replicate_zero, Nat.mul_zero]
    exact congrArg some Nat.ofDigitChars_ten_toDigits
  unfold parseU64
  split
  · rename_i rest heq
    have hplus := hdigit '+' (heq ▸ mem_cons_self)
    exact absurd hplus (by decide)
  · simp only [hparse, bind_some, if_pos h]

@[simp] theorem parseI64_textI64 (z : Int64) : parseI64 (textI64 z) = some z := by
  have hle := z.le_toInt
  have hlt := z.toInt_lt
  unfold textI64
  rcases hz : z.toInt with n | n
  · have hdigits := parseDigits_decimal n
    obtain ⟨c, rest, hd, hc⟩ := decimal_cases n
    have hsign := ne_of_isDigit hc
    have hn : n < 2 ^ 63 := by
      rw [hz] at hlt
      exact Int.ofNat_lt.mp hlt
    simp only
    unfold parseI64
    rw [hd] at hdigits ⊢
    split
    · rename_i heq
      exact absurd (head_eq_of_cons_eq heq) hsign.2
    · rename_i heq
      exact absurd (head_eq_of_cons_eq heq) hsign.1
    · rw [hdigits, bind_some, if_pos hn]
      refine congrArg some ?_
      rw [show (n : ℤ) = z.toInt from hz.symm, Int64.ofInt_toInt]
  · rw [hz] at hle
    unfold parseI64
    simp only [parseDigits_decimal, bind_some]
    rw [if_pos (by omega)]
    refine congrArg some ?_
    rw [show (-((n + 1 : ℕ) : ℤ)) = z.toInt by rw [hz]; rfl, Int64.ofInt_toInt]

/-- The characters of an integer. -/
theorem mem_textI64 {z : Int64} (h : c ∈ textI64 z) : c = '-' ∨ c.isDigit = true := by
  unfold textI64 at h
  split at h
  · exact .inr (isDigit_of_mem_decimal h)
  · rcases mem_cons.mp h with rfl | h
    · exact .inl rfl
    · exact .inr (isDigit_of_mem_decimal h)

theorem mem_textU64 {n : UInt64} (h : c ∈ textU64 n) : c.isDigit = true :=
  isDigit_of_mem_decimal h

end Imbh.Lib
