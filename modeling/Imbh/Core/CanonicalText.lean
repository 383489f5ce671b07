import Imbh.Core.NormalForm

/-!
# The texts of values (`canonical.rs`, `json.rs`)

How the library writes a tree and a finite double, and what it reads a number as, are parameters.

* `canonical_exact` — which values have one text, and what is read back of it.
-/

namespace Imbh.Core

open Lib

/-! ## Numbers -/

/-- Neither infinite nor a NaN. -/
def Finite (d : F64) : Prop := F64.isNaN d = false ∧ F64.magnitude d ≠ 0x7ff * 2 ^ 52

/-- How the library writes a finite double: a decimal with a point or an exponent, of that double only. -/
structure FloatText where
  text : F64 → Text
  chars : ∀ d, Finite d → ∀ c ∈ text d, isNumberChar c = true
  marked : ∀ d, Finite d → '.' ∈ text d ∨ 'e' ∈ text d
  injective : ∀ d e, Finite d → Finite e → text d = text e → d = e

/-- An integer, unsigned unless it has a sign. -/
def readInteger (t : Text) : Option Json :=
  if t.head? = some '-' then (parseI64 t).map .i64 else (parseU64 t).map .u64

/-- The library reads the integers that it writes. -/
structure ReadsIntegers (number : Text → Option Json) : Prop where
  u64 : ∀ v, number (textU64 v) = some (.u64 v)
  i64 : ∀ v, v.toInt < 0 → number (textI64 v) = some (.i64 v)

/-- Reading integers by their digits meets what is asked of the library. -/
theorem readsIntegers_readInteger : ReadsIntegers readInteger where
  u64 v := by
    have hhead : (textU64 v).head? ≠ some '-' := by
      obtain ⟨c, rest, hd, hc⟩ := decimal_cases v.toNat
      rw [textU64, hd, List.head?_cons]
      exact fun h => (ne_of_isDigit hc).2 (Option.some.inj h)
    rw [readInteger, if_neg hhead, parseU64_textU64]
    rfl
  i64 v h := by
    have hhead : (textI64 v).head? = some '-' := by
      unfold textI64
      rcases hv : v.toInt with n | n
      · rw [hv] at h
        exact absurd h (not_lt.mpr (Int.natCast_nonneg n))
      · rfl
    rw [readInteger, if_pos hhead, parseI64_textI64]
    rfl

/-- The characters of integers are none that mark a double. -/
theorem not_marked {t : Text} (h : ∀ c ∈ t, c = '-' ∨ c.isDigit = true) : ¬('.' ∈ t ∨ 'e' ∈ t) := by
  rintro (hmem | hmem)
  · exact absurd (h _ hmem) (by decide)
  · exact absurd (h _ hmem) (by decide)

theorem textU64_chars {v : UInt64} {c : Char} (h : c ∈ textU64 v) : c = '-' ∨ c.isDigit = true := .inr (mem_textU64 h)

theorem isNumberChar_of_integer {c : Char} (h : c = '-' ∨ c.isDigit = true) : isNumberChar c = true := by
  rcases h with rfl | h
  · rfl
  · simp [isNumberChar, h]

section

open Classical

/-- Each number as what it was written for. -/
noncomputable def exactNumber (float : FloatText) (t : Text) : Option Json :=
  if h : ∃ d, Finite d ∧ float.text d = t then some (.f64 h.choose) else readInteger t

theorem exactNumber_float (float : FloatText) {d : F64} (hd : Finite d) :
    exactNumber float (float.text d) = some (.f64 d) := by
  have h : ∃ e, Finite e ∧ float.text e = float.text d := ⟨d, hd, rfl⟩
  rw [exactNumber, dif_pos h]
  obtain ⟨hfinite, htext⟩ := h.choose_spec
  rw [float.injective _ _ hfinite hd htext]

theorem readsIntegers_exactNumber (float : FloatText) : ReadsIntegers (exactNumber float) := by
  have hinteger {t : Text} (ht : ∀ c ∈ t, c = '-' ∨ c.isDigit = true) : exactNumber float t = readInteger t := by
    rw [exactNumber, dif_neg]
    rintro ⟨d, hd, rfl⟩
    exact not_marked ht (float.marked d hd)
  refine ⟨fun v => ?_, fun v hv => ?_⟩
  · rw [hinteger fun c => textU64_chars, readsIntegers_readInteger.u64]
  · rw [hinteger fun c => mem_textI64, readsIntegers_readInteger.i64 v hv]

end

/-! ## Texts -/

section

variable (float : FloatText) (number : Text → Option Json)

mutual

/-- The library reads the finite doubles of a value as they were written. -/
def ReadExactly : AnyValue → Prop
  | .double d => Finite d → number (float.text d) = some (.f64 d)
  | .array items => ItemsReadExactly items
  | .map entries => EntriesReadExactly entries
  | _ => True

def ItemsReadExactly : List AnyValue → Prop
  | [] => True
  | v :: vs => ReadExactly v ∧ ItemsReadExactly vs

def EntriesReadExactly : List (Text × AnyValue) → Prop
  | [] => True
  | (_, v) :: es => ReadExactly v ∧ EntriesReadExactly es

end

variable {float number}

theorem numberText_of_chars {j : Json} {t : Text} (hne : t ≠ []) (ht : ∀ c ∈ t, c = '-' ∨ c.isDigit = true)
    (h : number t = some j) : NumberText number j t :=
  ⟨hne, fun c hc => isNumberChar_of_integer (ht c hc), h⟩

/-- The number of an integer is one that the library reads. -/
theorem numbersRead_int (hnumber : ReadsIntegers number) (i : Int64) :
    NumbersRead float.text number (canonical (.int i)) := by
  rw [canonical]
  split
  · exact numberText_of_chars (decimal_ne_nil _) (fun c => textU64_chars) (hnumber.u64 _)
  · rename_i hneg
    refine numberText_of_chars ?_ (fun c => mem_textI64) (hnumber.i64 i (not_le.mp hneg))
    unfold textI64
    split
    · exact decimal_ne_nil _
    · exact List.cons_ne_nil _ _

/-- That of a double is, unless it is not finite and has none. -/
theorem numbersRead_double {d : F64} (h : Finite d → number (float.text d) = some (.f64 d)) :
    NumbersRead float.text number (canonical (.double d)) := by
  rw [canonical, canonicalDouble]
  dsimp only
  split
  · exact ⟨trivial, trivial⟩
  split
  · exact ⟨trivial, trivial⟩
  · rename_i hnan hinfinite
    have hfinite : Finite d := ⟨Bool.eq_false_of_not_eq_true hnan, hinfinite⟩
    refine ⟨?_, float.chars d hfinite, h hfinite⟩
    intro hnil
    have hmarked := float.marked d hfinite
    rw [hnil] at hmarked
    simp at hmarked

mutual

/-- The numbers of the tree of a value. -/
theorem numbersRead_canonical (hnumber : ReadsIntegers number) (v : AnyValue) (h : ReadExactly float number v) :
    NumbersRead float.text number (canonical v) := by
  cases v with
  | int i => exact numbersRead_int hnumber i
  | double d => exact numbersRead_double h
  | array items => exact itemsRead_canonical hnumber items h
  | map entries =>
    rw [canonical, NumbersRead, membersRead_iff]
    intro m hm
    exact membersRead_iff.mp (membersRead_canonical hnumber entries h) m ((List.mem_insertionSort _).mp hm)
  | _ => trivial

theorem itemsRead_canonical (hnumber : ReadsIntegers number) (vs : List AnyValue)
    (h : ItemsReadExactly float number vs) : ItemsRead float.text number (canonicalItems vs) := by
  cases vs with
  | nil => trivial
  | cons v vs => exact ⟨numbersRead_canonical hnumber v h.1, itemsRead_canonical hnumber vs h.2⟩

theorem membersRead_canonical (hnumber : ReadsIntegers number) (es : List (Text × AnyValue))
    (h : EntriesReadExactly float number es) : MembersRead float.text number (canonicalMembers es) := by
  cases es with
  | nil => trivial
  | cons e es =>
    obtain ⟨k, v⟩ := e
    exact ⟨numbersRead_canonical hnumber v h.1, membersRead_canonical hnumber es h.2⟩

end

mutual

theorem readExactly_exactNumber (v : AnyValue) : ReadExactly float (exactNumber float) v := by
  cases v with
  | double d => exact exactNumber_float float
  | array items => exact itemsReadExactly_exactNumber items
  | map entries => exact entriesReadExactly_exactNumber entries
  | _ => trivial

theorem itemsReadExactly_exactNumber (vs : List AnyValue) : ItemsReadExactly float (exactNumber float) vs := by
  cases vs with
  | nil => trivial
  | cons v vs => exact ⟨readExactly_exactNumber v, itemsReadExactly_exactNumber vs⟩

theorem entriesReadExactly_exactNumber (es : List (Text × AnyValue)) :
    EntriesReadExactly float (exactNumber float) es := by
  cases es with
  | nil => trivial
  | cons e es => exact ⟨readExactly_exactNumber e.2, entriesReadExactly_exactNumber es⟩

end

/-- The canonical text of a value. -/
def canonicalText {float : FloatText} (writer : JsonWriter float.text) (v : AnyValue) : Text :=
  canonicalJsonValue writer.write v

variable {writer : JsonWriter float.text}

/-- Values with one text have one tree. -/
theorem eq_of_text_eq {v w : AnyValue} (h : canonicalText writer v = canonicalText writer w) :
    canonical v = canonical w := by
  have hread (v : AnyValue) := numbersRead_canonical (readsIntegers_exactNumber float) v (readExactly_exactNumber v)
  exact writer.eq_of_write_eq (hread v) (hread w) h

/-- A value that is not too deep is read back as settled and arranged, a deeper one is not read at all. -/
theorem parse_canonicalText {reader : JsonReader} (hnumber : ReadsIntegers number) (hreader : Reads number reader)
    {v : AnyValue} (hv : ReadExactly float number v) : parse reader (canonicalText writer v) =
      if (canonical v).depth < Tokeniser.recursionLimit then some v.settle.arrange else none := by
  have hread := hreader _ _ (writer.isText (numbersRead_canonical hnumber v hv))
  rw [parse, canonicalText, canonicalJsonValue, hread]
  split
  · rw [Option.map_some, AnyValue.ofJson_canonical]
  · rfl

/-- **Which values have one text, and what is read back of it.** -/
theorem canonical_exact (float : FloatText) (writer : JsonWriter float.text) (number : Text → Option Json)
    (reader : JsonReader) (hnumber : ReadsIntegers number) (hreader : Reads number reader) :
    (∀ v w : AnyValue, v.DistinctKeys → w.DistinctKeys →
      (canonicalText writer v = canonicalText writer w ↔ v.settle.Same w.settle)) ∧
    ∀ v, ReadExactly float number v → parse reader (canonicalText writer v) =
      if (canonical v).depth < Tokeniser.recursionLimit then some v.settle.arrange else none := by
  refine ⟨fun v w hv hw => ?_, fun v hv => parse_canonicalText hnumber hreader hv⟩
  rw [AnyValue.same_iff _ _ (AnyValue.distinctKeys_settle v hv) (AnyValue.distinctKeys_settle w hw),
    ← AnyValue.canonical_eq_iff]
  constructor
  · exact eq_of_text_eq
  · intro h
    rw [canonicalText, canonicalText, canonicalJsonValue, canonicalJsonValue, h]

end

/-! ## A writer and a reader -/

/-- A double as its bits with a point, which is how zero is written. -/
def bitsText : FloatText where
  text d := decimal d.toNat ++ ".0".toList
  chars d _ c hc := by
    rcases List.mem_append.mp hc with hc | hc
    · exact isNumberChar_of_integer (.inr (isDigit_of_mem_decimal hc))
    · simp at hc
      rcases hc with rfl | rfl <;> rfl
  marked d _ := .inl (by simp)
  injective d e _ _ h := by
    have hdecimal : decimal d.toNat = decimal e.toNat := List.append_cancel_right h
    have hparse := parseDigits_decimal d.toNat
    rw [hdecimal, parseDigits_decimal] at hparse
    exact BitVec.eq_of_toNat_eq (Option.some.inj hparse).symm

def bitsNumber (t : Text) : Option Json :=
  if '.' ∈ t then (parseDigits (t.takeWhile Char.isDigit)).map fun n => .f64 (BitVec.ofNat 64 n) else readInteger t

def bitsReader : JsonReader where
  document t := (readJson bitsNumber t).bind fun j => if j.depth < Tokeniser.recursionLimit then some j else none
  members _ := none

theorem readsIntegers_bitsNumber : ReadsIntegers bitsNumber := by
  have hinteger {t : Text} (ht : ∀ c ∈ t, c = '-' ∨ c.isDigit = true) : bitsNumber t = readInteger t :=
    if_neg fun h => not_marked ht (.inl h)
  refine ⟨fun v => ?_, fun v hv => ?_⟩
  · rw [hinteger fun c => textU64_chars, readsIntegers_readInteger.u64]
  · rw [hinteger fun c => mem_textI64, readsIntegers_readInteger.i64 v hv]

theorem reads_bitsReader : Reads bitsNumber bitsReader := by
  intro j t h
  show (readJson bitsNumber t).bind _ = _
  rw [readJson_eq h]
  rfl

/-- The texts that are written with it. -/
def bitsWriter : JsonWriter bitsText.text := compactWriter

/-- Entries in two orders have one text, which is read back in the order of the keys. -/
theorem canonical_exact_bits :
    (canonicalText bitsWriter (.map [("b".toList, .int 1), ("a".toList, .double 0)]) =
      canonicalText bitsWriter (.map [("a".toList, .double 0), ("b".toList, .int 1)])) ∧
    parse bitsReader (canonicalText bitsWriter (.map [("b".toList, .int 1), ("a".toList, .double 0)])) =
      some (.map [("a".toList, .double 0), ("b".toList, .int 1)]) := by
  obtain ⟨hsame, hparse⟩ :=
    canonical_exact bitsText bitsWriter bitsNumber bitsReader readsIntegers_bitsNumber reads_bitsReader
  have hdistinct : AnyValue.DistinctKeys (.map [("b".toList, .int 1), ("a".toList, .double 0)]) :=
    ⟨by simp, trivial, trivial, trivial⟩
  have hdistinct' : AnyValue.DistinctKeys (.map [("a".toList, .double 0), ("b".toList, .int 1)]) :=
    ⟨by simp, trivial, trivial, trivial⟩
  refine ⟨(hsame _ _ hdistinct hdistinct').mpr ?_, ?_⟩
  · exact ⟨_, rfl, rfl, ⟨.int 1, by simp [AnyValue.settleEntries, AnyValue.settle], rfl⟩,
      ⟨.double 0, by simp [AnyValue.settleEntries, AnyValue.settle], 0, rfl, .inl rfl⟩, trivial⟩
  · exact hparse _ ⟨trivial, fun _ => rfl, trivial⟩

/-- Arrays within an array. -/
def nested : ℕ → AnyValue
  | 0 => .array []
  | n + 1 => .array [nested n]

theorem readExactly_nested {float : FloatText} {number : Text → Option Json} (n : ℕ) :
    ReadExactly float number (nested n) := by
  induction n with
  | zero => trivial
  | succ n ih => exact ⟨ih, trivial⟩

theorem depth_nested (n : ℕ) : (canonical (nested n)).depth = n + 1 := by
  induction n with
  | zero => rfl
  | succ n ih =>
    rw [nested, canonical, canonicalItems, canonicalItems, Json.depth, itemsDepth, itemsDepth, ih]
    omega

/-- A map that is written as the sentinel of a NaN has its text; and a value may be too deep to be read back. -/
theorem canonical_not_exact :
    (canonicalText bitsWriter (.map [("$f".toList, .str "nan".toList)]) =
        canonicalText bitsWriter (.double 0x7ff8000000000000) ∧
      ¬(AnyValue.map [("$f".toList, .str "nan".toList)]).Same (.double 0x7ff8000000000000)) ∧
    parse bitsReader (canonicalText bitsWriter (nested 127)) = none := by
  refine ⟨⟨rfl, ?_⟩, ?_⟩
  · rintro ⟨fs, hfs, -⟩
    cases hfs
  · rw [parse_canonicalText readsIntegers_bitsNumber reads_bitsReader (readExactly_nested 127), depth_nested]
    rfl

end Imbh.Core
