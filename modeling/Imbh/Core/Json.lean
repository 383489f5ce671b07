import Imbh.Lib.Float64
import Imbh.Lib.Text

/-!
# Attribute values and their JSON

The value model of an attribute, and how it is read from the text of a JSON object: `parse` builds
the whole object, `jsonGet` picks one key. The grammar is that of the JSON library, given as a
`JsonReader`: the tree of a document, and the members of an object as they are met when all values
but the wanted one are skipped.
-/

namespace Imbh.Core

open Lib Option

/-- Source: `value.rs` `AnyValue` -/
inductive AnyValue
  | null
  | str (s : Text)
  | int (i : Int64)
  | double (d : F64)
  | bool (b : Bool)
  | bytes (b : Bytes)
  | array (items : List AnyValue)
  | map (entries : List (Text × AnyValue))

/-- Source: `value.rs` `AnyValue::as_str` -/
def AnyValue.asStr : AnyValue → Option Text
  | .str s => some s
  | _ => none

namespace AnyValue

mutual

/-- The derived equality, under which a NaN differs from itself.
Source: `value.rs` `AnyValue` -/
def eq : AnyValue → AnyValue → Bool
  | .null, .null => true
  | .str s, .str t => s = t
  | .int i, .int j => i = j
  | .double d, .double e => F64.eq d e
  | .bool b, .bool c => b = c
  | .bytes b, .bytes c => b = c
  | .array items, .array items' => eqList items items'
  | .map entries, .map entries' => eqEntries entries entries'
  | _, _ => false

def eqList : List AnyValue → List AnyValue → Bool
  | [], [] => true
  | v :: vs, w :: ws => eq v w && eqList vs ws
  | _, _ => false

def eqEntries : List (Text × AnyValue) → List (Text × AnyValue) → Bool
  | [], [] => true
  | (k, v) :: es, (l, w) :: fs => decide (k = l) && eq v w && eqEntries es fs
  | _, _ => false

end

mutual

/-- A NaN is the value or within it. -/
def hasNaN : AnyValue → Bool
  | .double d => F64.isNaN d
  | .array items => listHasNaN items
  | .map entries => entriesHaveNaN entries
  | _ => false

def listHasNaN : List AnyValue → Bool
  | [] => false
  | v :: vs => hasNaN v || listHasNaN vs

def entriesHaveNaN : List (Text × AnyValue) → Bool
  | [] => false
  | (_, v) :: es => hasNaN v || entriesHaveNaN es

end

mutual

/-- A value is equal to itself unless there is a NaN in it. -/
theorem eq_self (v : AnyValue) : v.eq v = !v.hasNaN := by
  cases v with
  | double d =>
    rw [eq, hasNaN, F64.eq, F64.partialCmp]
    cases F64.isNaN d <;> simp
  | array items => rw [eq, hasNaN, eqList_self items]
  | map entries => rw [eq, hasNaN, eqEntries_self entries]
  | _ => simp [eq, hasNaN]

theorem eqList_self (vs : List AnyValue) : eqList vs vs = !listHasNaN vs := by
  cases vs with
  | nil => rfl
  | cons v vs => rw [eqList, listHasNaN, eq_self v, eqList_self vs, Bool.not_or]

theorem eqEntries_self (es : List (Text × AnyValue)) : eqEntries es es = !entriesHaveNaN es := by
  cases es with
  | nil => rfl
  | cons e es =>
    obtain ⟨k, v⟩ := e
    rw [eqEntries, entriesHaveNaN, eq_self v, eqEntries_self es, Bool.not_or, decide_eq_true rfl, Bool.true_and]

end

end AnyValue

/-- A JSON document, as the library's visitor is shown it. -/
inductive Json
  | null
  | bool (b : Bool)
  | i64 (v : Int64)
  | u64 (v : UInt64)
  | f64 (v : F64)
  | str (s : Text)
  | seq (items : List Json)
  | map (members : List (Text × Json))

/-- The library's reader. `document` is the tree of a whole document. `members` walks an object
whose keys have no escapes, and gives each member with its tree if that can be built. -/
structure JsonReader where
  document : Text → Option Json
  members : Text → Option (List (Text × Option Json))

/-- Where both ways of reading an object succeed, they give the same members. -/
def JsonReader.Agree (reader : JsonReader) (input : Text) : Prop :=
  ∀ ms, reader.members input = some ms →
    ∃ kvs, reader.document input = some (.map kvs) ∧ ms = kvs.map fun kv => (kv.1, some kv.2)

/-- The non-finite sentinel `{"$f":"nan|inf|-inf"}`.
Source: `json.rs` `sentinel_or_map` -/
def sentinelOf : List (Text × AnyValue) → Option F64
  | [(key, .str tag)] =>
      if key = "$f".toList then
        if tag = "nan".toList then some 0x7ff8000000000000
        else if tag = "inf".toList then some 0x7ff0000000000000
        else if tag = "-inf".toList then some 0xfff0000000000000
        else none
      else none
  | _ => none

/-- A sentinel is one entry, a string under `$f`. -/
theorem sentinelOf_isSome {pairs : List (Text × AnyValue)} (h : (sentinelOf pairs).isSome) :
    ∃ tag, pairs = [("$f".toList, .str tag)] := by
  unfold sentinelOf at h
  split at h
  · rename_i key tag
    split at h
    · rename_i hkey
      exact ⟨tag, by rw [hkey]⟩
    · exact absurd h (by simp)
  · exact absurd h (by simp)

/-- Source: `json.rs` `sentinel_or_map` -/
def sentinelOrMap (pairs : List (Text × AnyValue)) : AnyValue :=
  match sentinelOf pairs with
  | some d => .double d
  | none => .map pairs

mutual

/-- The value of a tree.
Source: `json.rs` `AnyValueVisitor` -/
def ofJson : Json → AnyValue
  | .null => .null
  | .bool b => .bool b
  | .i64 v => .int v
  | .u64 v => if v.toNat < 2 ^ 63 then .int v.toInt64 else .double (natAsF64 v.toNat)
  | .f64 v => .double v
  | .str s => .str s
  | .seq items => .array (ofJsonList items)
  | .map members => sentinelOrMap (ofJsonMembers members)

def ofJsonList : List Json → List AnyValue
  | [] => []
  | j :: js => ofJson j :: ofJsonList js

def ofJsonMembers : List (Text × Json) → List (Text × AnyValue)
  | [] => []
  | (k, j) :: ms => (k, ofJson j) :: ofJsonMembers ms

end

section

variable (reader : JsonReader)

/-- Source: `json.rs` `parse` -/
def parse (input : Text) : Option AnyValue := (reader.document input).map ofJson

/-- Source: `json.rs` `parse_object` -/
def parseObject (input : Text) : Option (List (Text × AnyValue)) :=
  match parse reader input with
  | some (.map pairs) => some pairs
  | _ => none

/-- One key of an object, the other values being skipped; `none` where the walk fails.
Source: `json.rs` `pick_field_public` -/
def pickField (input key : Text) : Option (Option AnyValue) :=
  match reader.members input with
  | none => none
  | some ms =>
      match ms.find? fun m => m.1 = key with
      | none => some none
      | some (_, none) => none
      | some (_, some v) => some (some (ofJson v))

/-- The first pair of a key.
Source: `attributes.rs` `Attributes::get` -/
def getAttr (attributes : List (Text × AnyValue)) (key : Text) : Option AnyValue :=
  (attributes.find? fun kv => kv.1 = key).map Prod.snd

/-- Source: `attributes.rs` `json_get` -/
def jsonGet (input key : Text) : Option AnyValue :=
  match pickField reader input key with
  | some found => found
  | none => (parseObject reader input).bind fun pairs => getAttr pairs key

/-- The string at a key. Source: imbh-query `json_get_str_impl` -/
def jsonGetStr (input key : Text) : Option Text := (jsonGet reader input key).bind AnyValue.asStr

/-- The number at a key; a string is parsed. Source: imbh-query `json_get_num_impl` -/
def jsonGetNum (parseF64 : Text → Option F64) (input key : Text) : Option F64 :=
  match jsonGet reader input key with
  | some (.int v) => some (intAsF64 v.toInt)
  | some (.double d) => some d
  | some (.str v) => parseF64 v
  | _ => none

/-- Source: `attributes.rs` `Attributes::from_canonical_json` -/
def fromCanonicalJson (input : Text) : List (Text × AnyValue) := (parseObject reader input).getD []

end

theorem ofJsonMembers_eq (ms : List (Text × Json)) :
    ofJsonMembers ms = ms.map fun m => (m.1, ofJson m.2) := by
  induction ms with
  | nil => rfl
  | cons m ms ih =>
    rw [ofJsonMembers, ih, List.map_cons]

theorem find?_members (key : Text) (kvs : List (Text × Json)) :
    (kvs.map fun kv => (kv.1, some kv.2)).find? (fun m => m.1 = key) =
      (kvs.find? fun kv => kv.1 = key).map fun kv => (kv.1, some kv.2) := by
  rw [List.find?_map]
  rfl

theorem getAttr_ofJsonMembers (key : Text) (kvs : List (Text × Json)) :
    getAttr (ofJsonMembers kvs) key = (kvs.find? fun kv => kv.1 = key).map fun kv => ofJson kv.2 := by
  rw [getAttr, ofJsonMembers_eq, List.find?_map, map_map]
  rfl

/-- Picking a key is finding it in the object, which is not a sentinel. -/
theorem jsonGet_eq {reader : JsonReader} {input : Text} (hagree : reader.Agree input)
    (hmap : ∀ kvs, reader.document input = some (.map kvs) → sentinelOf (ofJsonMembers kvs) = none)
    (key : Text) : jsonGet reader input key = getAttr (fromCanonicalJson reader input) key := by
  unfold jsonGet pickField
  split
  · rename_i found hfound
    split at hfound
    · exact absurd hfound (by simp)
    · rename_i ms hms
      obtain ⟨kvs, hdoc, rfl⟩ := hagree ms hms
      have hobj : fromCanonicalJson reader input = ofJsonMembers kvs := by
        rw [fromCanonicalJson, parseObject, parse, hdoc, map_some, ofJson, sentinelOrMap,
          hmap kvs hdoc]
        rfl
      rw [hobj, getAttr_ofJsonMembers]
      rw [find?_members] at hfound
      rcases hkv : kvs.find? fun kv => kv.1 = key with _ | kv <;> rw [hkv] at hfound ⊢ <;>
        exact (some.inj hfound).symm
  · rw [fromCanonicalJson]
    rcases parseObject reader input with _ | pairs <;> rfl

/-- What is found in an object is what picking the key gives. -/
theorem jsonGet_of_getAttr {reader : JsonReader} {input key : Text} {v : AnyValue}
    (hagree : reader.Agree input) (h : getAttr (fromCanonicalJson reader input) key = some v) :
    jsonGet reader input key = some v := by
  rw [← h]
  apply jsonGet_eq hagree
  intro kvs hdoc
  by_contra hsentinel
  obtain ⟨d, hd⟩ := ne_none_iff_exists'.mp hsentinel
  rw [fromCanonicalJson, parseObject, parse, hdoc, map_some, ofJson, sentinelOrMap, hd] at h
  exact absurd h (by simp [getAttr])

end Imbh.Core
