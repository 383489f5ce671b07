import Imbh.Core.CanonicalText
import Imbh.Lib.Http
import Imbh.Otlp.Spans

/-!
# Exemplars as they are stored (`imbh-otlp`, `metrics.rs`)

The exemplars of a point are an array that is put together by hand around the canonical text of their attributes. It is
read back as any JSON is. An id of another length than it has to be is written as zeros, and so is none.

* `exemplars_exact_iff` — which exemplars survive.
-/

namespace Imbh.Otlp

open Lib Imbh.Core List
open Docker (KeyValue)

/-! ## Identifiers (`ids.rs`) -/

/-- Source: `ids.rs` `hex_val` -/
def hexVal (c : UInt8) : Option UInt8 :=
  if 48 ≤ c ∧ c ≤ 57 then some (c - 48)
  else if 97 ≤ c ∧ c ≤ 102 then some (c - 97 + 10)
  else if 65 ≤ c ∧ c ≤ 70 then some (c - 65 + 10)
  else none

/-- The bytes of pairs of digits. Source: `ids.rs` `hex_decode`, the loop -/
def hexBytes : Bytes → Option Bytes
  | [] => some []
  | [_] => none
  | hi :: lo :: rest => do
      let hi ← hexVal hi
      let lo ← hexVal lo
      let out ← hexBytes rest
      some ((hi <<< 4 ||| lo) :: out)

/-- Source: `ids.rs` `hex_decode` -/
def hexDecode (n : ℕ) (s : Text) : Option Bytes :=
  let bytes := encodeText s
  if bytes.length ≠ n * 2 then none else hexBytes bytes

/-- The character of half a byte, as a byte. -/
theorem hexVal_digitChar {d : ℕ} (h : d < 16) :
    (Nat.digitChar d).toNat < 128 ∧ hexVal (UInt8.ofNat (Nat.digitChar d).toNat) = some (UInt8.ofNat d) := by
  have hall : ∀ d : Fin 16, (Nat.digitChar d).toNat < 128 ∧
      hexVal (UInt8.ofNat (Nat.digitChar d).toNat) = some (UInt8.ofNat d) := by decide
  exact hall ⟨d, h⟩

/-- The halves of a byte are the byte. -/
theorem halves_eq (x : UInt8) : UInt8.ofNat (x.toNat / 16) <<< 4 ||| UInt8.ofNat (x.toNat % 16) = x := by
  have hx := x.toNat_lt
  have hlow : x.toNat % 16 < 2 ^ 4 := by omega
  have hor := Nat.shiftLeft_add_eq_or_of_lt hlow (x.toNat / 16)
  have hhigh : x.toNat / 16 * 16 % 256 = x.toNat / 16 * 2 ^ 4 := by omega
  have hsmall : x.toNat % 16 % 256 = x.toNat % 16 := by omega
  rw [Nat.shiftLeft_eq] at hor
  apply UInt8.toNat_inj.mp
  rw [UInt8.toNat_or, UInt8.toNat_shiftLeft]
  simp [Nat.shiftLeft_eq]
  rw [hhigh, hsmall, ← hor]
  omega

theorem hexBytes_digits (b : Bytes) : hexBytes ((hexLower b).map fun c : Char => UInt8.ofNat c.toNat) = some b := by
  induction b with
  | nil => rfl
  | cons x b ih =>
    have hx := x.toNat_lt
    have hhigh := (hexVal_digitChar (d := x.toNat / 16) (by omega)).2
    have hlow := (hexVal_digitChar (d := x.toNat % 16) (by omega)).2
    rw [hexLower, flatMap_cons, map_append]
    show (do
      let hi ← hexVal (UInt8.ofNat (Nat.digitChar (x.toNat / 16)).toNat)
      let lo ← hexVal (UInt8.ofNat (Nat.digitChar (x.toNat % 16)).toNat)
      let out ← hexBytes ((hexLower b).map fun c : Char => UInt8.ofNat c.toNat)
      some ((hi <<< 4 ||| lo) :: out)) = _
    rw [hhigh, hlow, ih]
    simp [halves_eq]

theorem mem_hexLower {b : Bytes} {c : Char} (h : c ∈ hexLower b) : ∃ d < 16, c = Nat.digitChar d := by
  obtain ⟨x, -, hc⟩ := mem_flatMap.mp h
  have hx := x.toNat_lt
  rcases mem_cons.mp hc with rfl | hc
  · exact ⟨_, by omega, rfl⟩
  · exact ⟨_, Nat.mod_lt _ (by simp), mem_singleton.mp hc⟩

theorem length_hexLower (b : Bytes) : (hexLower b).length = b.length * 2 := by
  induction b with
  | nil => rfl
  | cons x b ih =>
    rw [hexLower, flatMap_cons, length_append]
    have hrest : (b.flatMap fun x => [Nat.digitChar (x.toNat / 16), Nat.digitChar (x.toNat % 16)]).length =
      b.length * 2 := ih
    rw [hrest, length_cons]
    simp
    omega

/-- An id is read back. -/
theorem hexDecode_hexLower (b : Bytes) : hexDecode b.length (hexLower b) = some b := by
  have hascii : encodeText (hexLower b) = (hexLower b).map fun c => UInt8.ofNat c.toNat := by
    refine encodeText_ascii fun c hc => ?_
    obtain ⟨d, hd, rfl⟩ := mem_hexLower hc
    exact (hexVal_digitChar hd).1
  rw [hexDecode, hascii, hexBytes_digits, length_map, length_hexLower]
  simp

theorem length_fixed (n : ℕ) (b : Bytes) : (fixed n b).length = n := by
  unfold fixed
  split
  · assumption
  · exact length_replicate

/-! ## Exemplars -/

/-- Source: `opentelemetry_proto` `exemplar::Value` -/
inductive ExemplarValue
  | asDouble (d : F64)
  | asInt (v : Int64)

/-- Source: `opentelemetry_proto` `Exemplar` -/
structure OtlpExemplar where
  filteredAttributes : List KeyValue
  timeUnixNano : UInt64
  spanId : Bytes
  traceId : Bytes
  value : Option ExemplarValue

/-- Source: `metrics.rs` `Exemplar` -/
structure Exemplar where
  time : Int64
  value : F64
  traceId : Option Bytes
  spanId : Option Bytes
  attributes : Text

instance (d : F64) : Decidable (Core.Finite d) := inferInstanceAs (Decidable (_ ∧ _))

/-- The value as a double. Source: `lib.rs` `exemplars_json`, `value` -/
def OtlpExemplar.number (e : OtlpExemplar) : F64 :=
  match e.value with
  | some (.asDouble d) => d
  | some (.asInt v) => intAsF64 v.toInt
  | none => 0

/-- `f64::NAN` -/
def nan : F64 := 0x7ff8000000000000

section

-- How the JSON library writes a tree, and how a finite double is displayed.
variable {float : FloatText} (writer : JsonWriter float.text) (display : F64 → Text)

/-- Source: `lib.rs` `exemplars_json`, `value_str` -/
def valueStr (d : F64) : Text := if Core.Finite d then display d else "null".toList

/-- Source: `lib.rs` `canonical_json_object`, `kvs_to_pairs` -/
def attributesText (attributes : List KeyValue) : Text :=
  canonicalJsonObject writer.write (kvsToPairs attributes)

/-- Source: `lib.rs` `exemplars_json`, one entry -/
def exemplarText (e : OtlpExemplar) : Text :=
  let attrs :=
    if e.filteredAttributes = [] then [] else ",\"attributes\":".toList ++ attributesText writer e.filteredAttributes
  "\x7b\"time_unix_nano\":".toList ++ textU64 e.timeUnixNano ++ ",\"value\":".toList ++ valueStr display e.number ++
    ",\"trace_id\":\"".toList ++ hexLower (fixed 16 e.traceId) ++ "\",\"span_id\":\"".toList ++
    hexLower (fixed 8 e.spanId) ++ "\"".toList ++ attrs ++ "\x7d".toList

/-- Source: `lib.rs` `exemplars_json` -/
def exemplarsJson (exemplars : List OtlpExemplar) : Text :=
  if exemplars = [] then "[]".toList else '[' :: (commas (exemplars.map (exemplarText writer display)) ++ [']'])

/-- Source: `metrics.rs` `parse_exemplars`, `value` -/
def readNumber : Option AnyValue → F64
  | some (.double v) => v
  | some (.int v) => intAsF64 v.toInt
  | _ => nan

/-- Source: `metrics.rs` `parse_exemplars`, `time` -/
def readTime : Option AnyValue → Int64
  | some (.int t) => t
  | some (.double t) => Int64.ofInt (F64.asI64 t)
  | _ => 0

/-- Source: `metrics.rs` `parse_exemplars`, `attributes` -/
def readAttributes : Option AnyValue → Text
  | some (.map entries) => canonicalText writer (.map entries)
  | _ => []

/-- Source: `metrics.rs` `parse_exemplars`, one item -/
def readExemplar : AnyValue → Option Exemplar
  | .map pairs => some {
      time := readTime (getAttr pairs "time_unix_nano".toList)
      value := readNumber (getAttr pairs "value".toList)
      traceId := ((getAttr pairs "trace_id".toList).bind AnyValue.asStr).bind (hexDecode 16)
      spanId := ((getAttr pairs "span_id".toList).bind AnyValue.asStr).bind (hexDecode 8)
      attributes := readAttributes writer (getAttr pairs "attributes".toList) }
  | _ => none

/-- Source: `metrics.rs` `parse_exemplars` -/
def parseExemplars (reader : JsonReader) (json : Text) (out : List Exemplar) : List Exemplar :=
  match parse reader json with
  | some (.array items) => out ++ items.filterMap (readExemplar writer)
  | _ => out

end

/-! ## What is read back -/

/-- The depth of the attributes, if there are any. -/
def OtlpExemplar.depth (e : OtlpExemplar) : ℕ :=
  if e.filteredAttributes = [] then 0 else (canonical (.map (kvsToPairs e.filteredAttributes))).depth

/-- What is read back of an exemplar. -/
def readBack {float : FloatText} (writer : JsonWriter float.text) (e : OtlpExemplar) : Exemplar where
  time := e.timeUnixNano.toInt64
  value := if Core.Finite e.number then e.number else nan
  traceId := some (fixed 16 e.traceId)
  spanId := some (fixed 8 e.spanId)
  attributes :=
    if e.filteredAttributes = [] ∨ (sentinelOf (kvsToPairs e.filteredAttributes)).isSome then []
    else attributesText writer e.filteredAttributes

/-- The library reads what a finite double is displayed as: as that double, or as an integer that is converted to it. -/
structure ReadsDisplayed (number : Text → Option Json) (display : F64 → Text) : Prop where
  chars : ∀ d, Core.Finite d → display d ≠ [] ∧ ∀ c ∈ display d, isNumberChar c = true
  exact : ∀ d, Core.Finite d → number (display d) = some (.f64 d) ∨
    (∃ v, number (display d) = some (.u64 v) ∧ natAsF64 v.toNat = d) ∨
    ∃ v, number (display d) = some (.i64 v) ∧ intAsF64 v.toInt = d

/-- The library reads the finite doubles of canonical texts. -/
def ReadsFloats (number : Text → Option Json) (float : FloatText) : Prop :=
  ∀ d, Core.Finite d → number (float.text d) = some (.f64 d)

variable {float : FloatText} {number : Text → Option Json}

mutual

theorem readExactly_of_floats (h : ReadsFloats number float) (v : AnyValue) : ReadExactly float number v := by
  cases v with
  | double d => exact h d
  | array items => exact itemsReadExactly_of_floats h items
  | map entries => exact entriesReadExactly_of_floats h entries
  | _ => trivial

theorem itemsReadExactly_of_floats (h : ReadsFloats number float) (vs : List AnyValue) :
    ItemsReadExactly float number vs := by
  cases vs with
  | nil => trivial
  | cons v vs => exact ⟨readExactly_of_floats h v, itemsReadExactly_of_floats h vs⟩

theorem entriesReadExactly_of_floats (h : ReadsFloats number float) (es : List (Text × AnyValue)) :
    EntriesReadExactly float number es := by
  cases es with
  | nil => trivial
  | cons e es => exact ⟨readExactly_of_floats h e.2, entriesReadExactly_of_floats h es⟩

end

/-- No bytes are written as the tag of a sentinel. -/
theorem base64Encode_not_tag (b : Bytes) : base64Encode b ∉ sentinelTags := by
  intro h
  have hdecode := base64Decode_encode b
  simp only [sentinelTags, mem_cons, not_mem_nil, or_false] at h
  rcases h with h | h | h
  · rw [h] at hdecode
    cases hdecode
  · rw [h] at hdecode
    cases hdecode
  · rw [h] at hdecode
    cases hdecode

/-- Entries are read back as a sentinel if they are one. -/
theorem sentinelOf_readMembers (es : List (Text × AnyValue)) :
    (sentinelOf (readMembers es)).isSome = (sentinelOf es).isSome := by
  rw [Bool.eq_iff_iff, sentinelOf_isSome_iff, sentinelOf_isSome_iff]
  constructor
  · rintro ⟨tag, htag, heq⟩
    refine ⟨tag, htag, ?_⟩
    obtain ⟨⟨k, v⟩, hsort, hkv⟩ := map_eq_singleton_iff.mp heq
    obtain ⟨rfl, hv⟩ := Prod.mk.inj hkv
    have hperm := perm_insertionSort keyLe es
    rw [hsort] at hperm
    obtain rfl := perm_singleton.mp hperm.symm
    rw [AnyValue.ofJson_canonical, AnyValue.arrange_eq_str] at hv
    cases v with
    | str s =>
      obtain rfl : s = tag := AnyValue.str.inj hv
      rfl
    | bytes b =>
      rw [AnyValue.settle] at hv
      exact absurd (AnyValue.str.inj hv ▸ htag) (base64Encode_not_tag b)
    | map entries =>
      rw [AnyValue.settle, sentinelOrMap] at hv
      split at hv
      · cases hv
      · cases hv
    | _ => cases hv
  · rintro ⟨tag, htag, rfl⟩
    exact ⟨tag, htag, rfl⟩

section

variable {float : FloatText} {writer : JsonWriter float.text} {display : F64 → Text} {number : Text → Option Json}
  {reader : JsonReader}

/-- The attributes are read back, unless they are a sentinel. -/
theorem readAttributes_eq (attributes : List KeyValue) :
    readAttributes writer (some (ofJson (canonical (.map (kvsToPairs attributes))))) =
      if (sentinelOf (kvsToPairs attributes)).isSome then [] else attributesText writer attributes := by
  have hwritten := AnyValue.canonical_ofJson (.map (kvsToPairs attributes))
  rw [ofJson_canonical_map, sentinelOrMap] at hwritten ⊢
  rw [← sentinelOf_readMembers]
  rcases hs : sentinelOf (readMembers (kvsToPairs attributes)) with _ | d
  · rw [hs] at hwritten
    show writer.write (canonical (.map (readMembers (kvsToPairs attributes)))) = _
    rw [hwritten]
    rfl
  · rfl

theorem toInt_toInt64 {v : UInt64} (h : v.toNat < 2 ^ 63) : v.toInt64.toInt = v.toNat := by
  show v.toBitVec.toInt = _
  rw [BitVec.toInt_eq_toNat_of_lt (by rw [UInt64.toNat_toBitVec]; omega), UInt64.toNat_toBitVec]

/-- A small number is the same double as an integer. -/
theorem intAsF64_toInt64 {v : UInt64} (h : v.toNat < 2 ^ 63) : intAsF64 v.toInt64.toInt = natAsF64 v.toNat := by
  rw [toInt_toInt64 h, intAsF64, if_neg (not_lt.mpr (Int.natCast_nonneg _))]
  rfl

/-- The text of the value is one of a tree, the number of which is the value. -/
theorem exists_value (hdisplay : ReadsDisplayed number display) (d : F64) :
    ∃ j, JsonText number j (valueStr display d) ∧ j.depth = 0 ∧
      readNumber (some (ofJson j)) = if Core.Finite d then d else nan := by
  unfold valueStr
  split
  · rename_i hd
    obtain ⟨hne, hchars⟩ := hdisplay.chars d hd
    rcases hdisplay.exact d hd with h | ⟨v, h, hv⟩ | ⟨v, h, hv⟩
    · exact ⟨.f64 d, ⟨hne, hchars, h⟩, rfl, rfl⟩
    · refine ⟨.u64 v, ⟨hne, hchars, h⟩, rfl, ?_⟩
      rw [ofJson]
      split
      · rename_i hsmall
        exact (intAsF64_toInt64 hsmall).trans hv
      · exact hv
    · exact ⟨.i64 v, ⟨hne, hchars, h⟩, rfl, hv⟩
  · exact ⟨.null, rfl, rfl, rfl⟩

theorem getAttr_here (k : Text) (v : AnyValue) (rest : List (Text × AnyValue)) :
    getAttr ((k, v) :: rest) k = some v := by
  rw [getAttr, find?_cons_of_pos (by simp)]
  rfl

theorem getAttr_next {k key : Text} (h : k ≠ key) (v : AnyValue) (rest : List (Text × AnyValue)) :
    getAttr ((k, v) :: rest) key = getAttr rest key := by
  rw [getAttr, find?_cons_of_neg (by simpa using h)]
  rfl

/-- What is read of the fields. -/
theorem readExemplar_fields (t : Int64) (v : AnyValue) (trace span : Text) (attributes : Option AnyValue) :
    readExemplar writer (.map ([("time_unix_nano".toList, .int t), ("value".toList, v), ("trace_id".toList, .str trace),
      ("span_id".toList, .str span)] ++ field "attributes" attributes)) =
    some ⟨t, readNumber (some v), hexDecode 16 trace, hexDecode 8 span, readAttributes writer attributes⟩ := by
  have hlast : getAttr (field "attributes" attributes) "attributes".toList = attributes := by
    rcases attributes with _ | w
    · rfl
    · exact getAttr_here _ w []
  rw [cons_append, cons_append, cons_append, cons_append, nil_append, readExemplar,
    getAttr_here, getAttr_next (by decide), getAttr_here, getAttr_next (by decide), getAttr_next (by decide),
    getAttr_here, getAttr_next (by decide), getAttr_next (by decide), getAttr_next (by decide), getAttr_here,
    getAttr_next (by decide), getAttr_next (by decide), getAttr_next (by decide), getAttr_next (by decide), hlast]
  rfl

theorem stringText_hexLower (b : Bytes) : StringText (hexLower b) ('"' :: (hexLower b ++ ['"'])) := by
  refine stringText_plain fun c hc => ?_
  obtain ⟨d, hd, rfl⟩ := mem_hexLower hc
  have hall : ∀ d : Fin 16, isPlain (Nat.digitChar d) = true := by decide
  exact hall ⟨d, hd⟩

/-- The fields of an entry as a tree, with that of its value and of its attributes. -/
def entryMembers (e : OtlpExemplar) (value : Json) (attributes : Option Json) : List (Text × Json) :=
  [("time_unix_nano".toList, .u64 e.timeUnixNano), ("value".toList, value),
    ("trace_id".toList, .str (hexLower (fixed 16 e.traceId))), ("span_id".toList, .str (hexLower (fixed 8 e.spanId)))] ++
    (attributes.map fun j => ("attributes".toList, j)).toList

theorem ofJson_entryMembers {e : OtlpExemplar} (htime : e.timeUnixNano.toNat < 2 ^ 63) (value : Json)
    (attributes : Option Json) : ofJson (.map (entryMembers e value attributes)) =
      .map ([("time_unix_nano".toList, .int e.timeUnixNano.toInt64), ("value".toList, ofJson value),
        ("trace_id".toList, .str (hexLower (fixed 16 e.traceId))), ("span_id".toList, .str (hexLower (fixed 8 e.spanId)))]
        ++ field "attributes" (attributes.map ofJson)) := by
  rcases attributes with _ | j
  · rw [ofJson, ofJsonMembers_eq, entryMembers]
    simpa [sentinelOrMap, sentinelOf, field, ofJson] using htime
  · rw [ofJson, ofJsonMembers_eq, entryMembers]
    simpa [sentinelOrMap, sentinelOf, field, ofJson] using htime

/-- The text of a field. -/
def fieldText (name value : Text) : Text := ('"' :: (name ++ ['"'])) ++ ':' :: value

/-- The texts of the fields of an entry. -/
def entryTexts {float : FloatText} (writer : JsonWriter float.text) (display : F64 → Text) (e : OtlpExemplar) :
    List Text :=
  [fieldText "time_unix_nano".toList (textU64 e.timeUnixNano), fieldText "value".toList (valueStr display e.number),
    fieldText "trace_id".toList ('"' :: (hexLower (fixed 16 e.traceId) ++ ['"'])),
    fieldText "span_id".toList ('"' :: (hexLower (fixed 8 e.spanId) ++ ['"']))] ++
    if e.filteredAttributes = [] then []
    else [fieldText "attributes".toList (attributesText writer e.filteredAttributes)]

/-- What is put together by hand is an object. -/
theorem exemplarText_eq (e : OtlpExemplar) :
    exemplarText writer display e = '\x7b' :: (commas (entryTexts writer display e) ++ ['\x7d']) := by
  have htime : "\x7b\"time_unix_nano\":".toList = '\x7b' :: '"' :: ("time_unix_nano".toList ++ ['"', ':']) := rfl
  have hvalue : ",\"value\":".toList = ',' :: '"' :: ("value".toList ++ ['"', ':']) := rfl
  have htrace : ",\"trace_id\":\"".toList = ',' :: '"' :: ("trace_id".toList ++ ['"', ':', '"']) := rfl
  have hspan : "\",\"span_id\":\"".toList = '"' :: ',' :: '"' :: ("span_id".toList ++ ['"', ':', '"']) := rfl
  have hattributes : ",\"attributes\":".toList = ',' :: '"' :: ("attributes".toList ++ ['"', ':']) := rfl
  have hquote : "\"".toList = ['"'] := rfl
  have hclose : "\x7d".toList = ['\x7d'] := rfl
  unfold exemplarText entryTexts fieldText
  rw [htime, hvalue, htrace, hspan, hattributes, hquote, hclose]
  generalize "time_unix_nano".toList = time
  generalize "value".toList = value
  generalize "trace_id".toList = trace
  generalize "span_id".toList = span
  generalize "attributes".toList = attributes
  split
  · simp [commas_cons_cons]
  · simp [commas_cons_cons]

/-- The text of an entry is one of a tree, which is read back. -/
theorem exists_entry (hnumber : ReadsIntegers number) (hfloat : ReadsFloats number float)
    (hdisplay : ReadsDisplayed number display) {e : OtlpExemplar} (htime : e.timeUnixNano.toNat < 2 ^ 63) :
    ∃ j, JsonText number j (exemplarText writer display e) ∧ j.depth = e.depth + 1 ∧
      readExemplar writer (ofJson j) = some (readBack writer e) := by
  obtain ⟨value, hvalue, hflat, hread⟩ := exists_value hdisplay e.number
  have htimeText : JsonText number (.u64 e.timeUnixNano) (textU64 e.timeUnixNano) :=
    numberText_of_chars (decimal_ne_nil _) (fun c => textU64_chars) (hnumber.u64 _)
  have htrace := stringText_hexLower (fixed 16 e.traceId)
  have hspan := stringText_hexLower (fixed 8 e.spanId)
  have htraceRead := hexDecode_hexLower (fixed 16 e.traceId)
  have hspanRead := hexDecode_hexLower (fixed 8 e.spanId)
  rw [length_fixed] at htraceRead hspanRead
  by_cases hattrs : e.filteredAttributes = []
  · refine ⟨.map (entryMembers e value none), ⟨entryTexts writer display e, ?_, exemplarText_eq e⟩, ?_, ?_⟩
    · rw [entryTexts, if_pos hattrs]
      exact ⟨_, _, _, rfl, stringText_plain (by simp [isPlain]), htimeText, _, _, _, rfl,
        stringText_plain (by simp [isPlain]), hvalue, _, _, _, rfl, stringText_plain (by simp [isPlain]), htrace,
        _, _, _, rfl, stringText_plain (by simp [isPlain]), hspan, rfl⟩
    · simp [entryMembers, Json.depth, membersDepth, hflat, OtlpExemplar.depth, hattrs]
    · rw [ofJson_entryMembers htime, readExemplar_fields, htraceRead, hspanRead, hread]
      simp [readBack, hattrs, readAttributes]
  · have htext := writer.isText (numbersRead_canonical hnumber _
      (readExactly_of_floats hfloat (.map (kvsToPairs e.filteredAttributes))))
    refine ⟨.map (entryMembers e value (some (canonical (.map (kvsToPairs e.filteredAttributes))))),
      ⟨entryTexts writer display e, ?_, exemplarText_eq e⟩, ?_, ?_⟩
    · rw [entryTexts, if_neg hattrs]
      exact ⟨_, _, _, rfl, stringText_plain (by simp [isPlain]), htimeText, _, _, _, rfl,
        stringText_plain (by simp [isPlain]), hvalue, _, _, _, rfl, stringText_plain (by simp [isPlain]), htrace,
        _, _, _, rfl, stringText_plain (by simp [isPlain]), hspan, _, _, _, rfl, stringText_plain (by simp [isPlain]),
        htext, rfl⟩
    · simp [entryMembers, Json.depth, membersDepth, hflat, OtlpExemplar.depth, hattrs]
      omega
    · rw [ofJson_entryMembers htime, readExemplar_fields, htraceRead, hspanRead, hread, Option.map_some,
        readAttributes_eq]
      simp [readBack, hattrs]

/-- The texts of the entries are those of the items of an array. -/
theorem exists_entries (hnumber : ReadsIntegers number) (hfloat : ReadsFloats number float)
    (hdisplay : ReadsDisplayed number display) {es : List OtlpExemplar}
    (htime : ∀ e ∈ es, e.timeUnixNano.toNat < 2 ^ 63) :
    ∃ items, ItemTexts number items (es.map (exemplarText writer display)) ∧
      (∀ n, itemsDepth items ≤ n ↔ ∀ e ∈ es, e.depth + 1 ≤ n) ∧
      (ofJsonList items).filterMap (readExemplar writer) = es.map (readBack writer) := by
  induction es with
  | nil => exact ⟨[], rfl, by simp [itemsDepth], rfl⟩
  | cons e es ih =>
    obtain ⟨hhere, hrest⟩ := forall_mem_cons.mp htime
    obtain ⟨j, htext, hdepth, hread⟩ := exists_entry hnumber hfloat hdisplay hhere
    obtain ⟨items, htexts, hdepths, hreads⟩ := ih hrest
    refine ⟨j :: items, ⟨_, _, rfl, htext, htexts⟩, fun n => ?_, ?_⟩
    · rw [itemsDepth, max_le_iff, hdepths, hdepth, forall_mem_cons]
    · rw [ofJsonList, filterMap_cons_some hread, hreads, map_cons]

/-- What is read back of exemplars: one for each, unless one of them is too deep. -/
theorem parseExemplars_eq (hnumber : ReadsIntegers number) (hfloat : ReadsFloats number float)
    (hdisplay : ReadsDisplayed number display) (hreader : Reads number reader) {es : List OtlpExemplar}
    (htime : ∀ e ∈ es, e.timeUnixNano.toNat < 2 ^ 63) (out : List Exemplar) :
    parseExemplars writer reader (exemplarsJson writer display es) out =
      if ∀ e ∈ es, e.depth + 2 < Tokeniser.recursionLimit then out ++ es.map (readBack writer) else out := by
  obtain ⟨items, htexts, hdepths, hreads⟩ := exists_entries hnumber hfloat hdisplay htime
  have htext : JsonText number (.seq items) (exemplarsJson writer display es) := by
    refine ⟨_, htexts, ?_⟩
    unfold exemplarsJson
    split
    · rename_i hes
      rw [hes]
      rfl
    · rfl
  have hdepth : (Json.seq items).depth < Tokeniser.recursionLimit ↔
      ∀ e ∈ es, e.depth + 2 < Tokeniser.recursionLimit := by
    have hitems := hdepths 126
    rw [Json.depth, show 1 + itemsDepth items < Tokeniser.recursionLimit ↔ itemsDepth items ≤ 126 by
      unfold Tokeniser.recursionLimit; omega, hitems]
    refine forall₂_congr fun e _ => ?_
    unfold Tokeniser.recursionLimit
    omega
  unfold parseExemplars
  rw [parse, hreader _ _ htext]
  by_cases h : ∀ e ∈ es, e.depth + 2 < Tokeniser.recursionLimit
  · rw [if_pos h, if_pos (hdepth.mpr h), Option.map_some, ofJson]
    dsimp only
    rw [hreads]
  · rw [if_neg h, if_neg fun hd => h (hdepth.mp hd)]
    rfl

end

/-! ## Which survive -/

/-- What an exemplar should be read back as. An integer is the double that the points have. -/
structure Survives {float : FloatText} (writer : JsonWriter float.text) (e : OtlpExemplar) (read : Exemplar) :
    Prop where
  time : read.time.toInt = e.timeUnixNano.toNat
  finite : Core.Finite e.number → read.value = e.number
  other : ¬Core.Finite e.number → F64.isNaN read.value = true
  trace : e.traceId.length = 16 → read.traceId = some e.traceId
  noTrace : e.traceId = [] → read.traceId = none
  span : e.spanId.length = 8 → read.spanId = some e.spanId
  noSpan : e.spanId = [] → read.spanId = none
  attributes : read.attributes =
    if e.filteredAttributes = [] then [] else attributesText writer e.filteredAttributes

/-- The exemplar has both ids, its attributes are no sentinel, and it is not too deep within the array. -/
structure Kept (e : OtlpExemplar) : Prop where
  trace : e.traceId ≠ []
  span : e.spanId ≠ []
  attributes : sentinelOf (kvsToPairs e.filteredAttributes) = none
  depth : e.depth + 2 < Tokeniser.recursionLimit

/-- Attributes have a text. -/
theorem attributesText_ne_nil (writer : JsonWriter float.text) (attributes : List KeyValue) :
    attributesText writer attributes ≠ [] := by
  intro hnil
  have hread := readJson_eq (writer.isText (numbersRead_canonical (readsIntegers_exactNumber float)
    (.map (kvsToPairs attributes)) (readExactly_exactNumber _)))
  have htext : writer.write (canonical (.map (kvsToPairs attributes))) = [] := hnil
  rw [htext] at hread
  cases hread

theorem survives_readBack_iff {writer : JsonWriter float.text} {e : OtlpExemplar}
    (htime : e.timeUnixNano.toNat < 2 ^ 63) :
    Survives writer e (readBack writer e) ↔
      e.traceId ≠ [] ∧ e.spanId ≠ [] ∧ sentinelOf (kvsToPairs e.filteredAttributes) = none := by
  constructor
  · intro h
    refine ⟨fun htrace => ?_, fun hspan => ?_, ?_⟩
    · cases h.noTrace htrace
    · cases h.noSpan hspan
    · by_contra hsentinel
      have hsome := Option.isSome_iff_ne_none.mpr hsentinel
      have hne : e.filteredAttributes ≠ [] := by
        intro hnil
        rw [hnil] at hsome
        cases hsome
      have hread : (readBack writer e).attributes = [] := if_pos (.inr hsome)
      have hattributes := h.attributes
      rw [hread, if_neg hne] at hattributes
      exact attributesText_ne_nil writer _ hattributes.symm
  · rintro ⟨htrace, hspan, hsentinel⟩
    refine ⟨toInt_toInt64 htime, fun h => if_pos h, fun h => ?_, fun h => ?_, fun h => absurd h htrace, fun h => ?_,
      fun h => absurd h hspan, ?_⟩
    · rw [readBack, if_neg h]
      rfl
    · exact congrArg some (if_pos h)
    · exact congrArg some (if_pos h)
    · rw [readBack, hsentinel]
      simp

/-- **Which exemplars survive.** -/
theorem exemplars_exact_iff (float : FloatText) (writer : JsonWriter float.text) (display : F64 → Text)
    (number : Text → Option Json) (reader : JsonReader) (hnumber : ReadsIntegers number)
    (hfloat : ReadsFloats number float) (hdisplay : ReadsDisplayed number display) (hreader : Reads number reader)
    (es : List OtlpExemplar) (htime : ∀ e ∈ es, e.timeUnixNano.toNat < 2 ^ 63) :
    List.Forall₂ (Survives writer) es (parseExemplars writer reader (exemplarsJson writer display es) []) ↔
      ∀ e ∈ es, Kept e := by
  rw [parseExemplars_eq hnumber hfloat hdisplay hreader htime, nil_append]
  split
  · rename_i hdepth
    rw [List.forall₂_map_right_iff, List.forall₂_same]
    refine forall₂_congr fun e he => ?_
    rw [survives_readBack_iff (htime e he)]
    exact ⟨fun h => ⟨h.1, h.2.1, h.2.2, hdepth e he⟩, fun h => ⟨h.trace, h.span, h.attributes⟩⟩
  · rename_i hdepth
    constructor
    · intro h
      obtain rfl := List.forall₂_nil_right_iff.mp h
      exact fun e he => absurd he not_mem_nil
    · exact fun h => absurd (fun e he => (h e he).depth) hdepth

/-! ## Points with a sample -/

/-- Zero is displayed without a point. -/
def zeroDisplay (d : F64) : Text := if d = 0 then "0".toList else bitsText.text d

theorem readsFloats_bitsNumber : ReadsFloats bitsNumber bitsText := by
  intro d _
  have hdigits : (decimal d.toNat ++ ".0".toList).takeWhile Char.isDigit = decimal d.toNat := by
    rw [takeWhile_append_of_pos fun c hc => isDigit_of_mem_decimal hc]
    simp
  show bitsNumber (decimal d.toNat ++ ".0".toList) = _
  rw [bitsNumber, if_pos (by simp), hdigits, parseDigits_decimal]
  simp

theorem readsDisplayed_zeroDisplay : ReadsDisplayed bitsNumber zeroDisplay where
  chars d hd := by
    unfold zeroDisplay
    split
    · simp [isNumberChar]
    · refine ⟨?_, bitsText.chars d hd⟩
      intro hnil
      have hmarked := bitsText.marked d hd
      rw [hnil] at hmarked
      simp at hmarked
  exact d hd := by
    unfold zeroDisplay
    split
    · rename_i hzero
      exact .inr (.inl ⟨0, rfl, hzero ▸ rfl⟩)
    · exact .inl (readsFloats_bitsNumber d hd)

/-- A sample with the ids of a span. -/
def sampled : OtlpExemplar where
  filteredAttributes := [("sampler".toList, .string "on".toList)]
  timeUnixNano := 5
  spanId := List.replicate 8 1
  traceId := List.replicate 16 1
  value := some (.asDouble 0)

theorem exemplars_exact_sampled : List.Forall₂ (Survives bitsWriter) [sampled]
    (parseExemplars bitsWriter bitsReader (exemplarsJson bitsWriter zeroDisplay [sampled]) []) := by
  refine (exemplars_exact_iff bitsText bitsWriter zeroDisplay bitsNumber bitsReader readsIntegers_bitsNumber
    readsFloats_bitsNumber readsDisplayed_zeroDisplay reads_bitsReader [sampled] ?_).mpr ?_
  · simp [sampled]
  · intro e he
    obtain rfl := mem_singleton.mp he
    exact ⟨by simp [sampled], by simp [sampled], rfl, by decide⟩

/-- A sample outside of any span is read back as one of a trace of zeros. -/
theorem exemplar_of_no_trace :
    let e : OtlpExemplar := { sampled with traceId := [], spanId := [] }
    let read := parseExemplars bitsWriter bitsReader (exemplarsJson bitsWriter zeroDisplay [e]) []
    read.map Exemplar.traceId = [some (List.replicate 16 0)] ∧ ¬List.Forall₂ (Survives bitsWriter) [e] read := by
  intro e read
  have hread : read = [readBack bitsWriter e] := by
    refine (parseExemplars_eq readsIntegers_bitsNumber readsFloats_bitsNumber readsDisplayed_zeroDisplay
      reads_bitsReader (by simp [e, sampled]) []).trans (if_pos ?_)
    intro e' he
    obtain rfl := mem_singleton.mp he
    decide
  rw [hread]
  refine ⟨rfl, fun h => ?_⟩
  cases (List.forall₂_cons.mp h).1.noTrace rfl

end Imbh.Otlp
