import Mathlib.Data.List.Sort
import Imbh.Core.Json
import Imbh.Lib.Base64

/-!
# Canonical JSON (`canonical.rs`)

The tree of the document that is written for a value, as the reader is shown it: the keys of an object are sorted, and
a double that JSON cannot write is a sentinel object. The text of a tree is the JSON library's.
-/

namespace Imbh.Core

open Lib List

/-- The order of the keys of an object. -/
def keyLe {β : Type} (a b : Text × β) : Prop := a.1 ≤ b.1

instance {β : Type} : DecidableRel (keyLe : Text × β → Text × β → Prop) := fun a b =>
  inferInstanceAs (Decidable (a.1 ≤ b.1))

/-- Source: `canonical.rs` `encode_double` -/
def canonicalDouble (d : F64) : Json :=
  let tag (s : String) : Json := .map [("$f".toList, .str s.toList)]
  if F64.isNaN d then tag "nan"
  else if F64.magnitude d = 0x7ff * 2 ^ 52 then tag (if F64.isNegative d then "-inf" else "inf")
  else .f64 d

mutual

/-- The tree of a value. An integer that is not negative is read as an unsigned one.
Source: `canonical.rs` `Canonical` -/
def canonical : AnyValue → Json
  | .null => .null
  | .bool b => .bool b
  | .int i => if 0 ≤ i.toInt then .u64 i.toUInt64 else .i64 i
  | .double d => canonicalDouble d
  | .str s => .str s
  | .bytes b => .str (base64Encode b)
  | .array items => .seq (canonicalItems items)
  | .map entries => .map ((canonicalMembers entries).insertionSort keyLe)

def canonicalItems : List AnyValue → List Json
  | [] => []
  | v :: vs => canonical v :: canonicalItems vs

def canonicalMembers : List (Text × AnyValue) → List (Text × Json)
  | [] => []
  | (k, v) :: es => (k, canonical v) :: canonicalMembers es

end

section

-- The text that the JSON library writes for a tree.
variable (write : Json → Text)

/-- Source: `canonical.rs` `canonical_json_value` -/
def canonicalJsonValue (v : AnyValue) : Text := write (canonical v)

/-- Source: `canonical.rs` `canonical_json_object` -/
def canonicalJsonObject (entries : List (Text × AnyValue)) : Text := canonicalJsonValue write (.map entries)

end

/-- The library reads the tree of a value back from its text. -/
def ReadsBack (reader : JsonReader) (write : Json → Text) (v : AnyValue) : Prop :=
  reader.document (write (canonical v)) = some (canonical v)

theorem canonicalMembers_eq (es : List (Text × AnyValue)) :
    canonicalMembers es = es.map fun e => (e.1, canonical e.2) := by
  induction es with
  | nil => rfl
  | cons e es ih => rw [canonicalMembers, ih, map_cons]

theorem canonicalItems_eq (vs : List AnyValue) : canonicalItems vs = vs.map canonical := by
  induction vs with
  | nil => rfl
  | cons v vs ih => rw [canonicalItems, ih, map_cons]

theorem ofJsonList_eq (js : List Json) : ofJsonList js = js.map ofJson := by
  induction js with
  | nil => rfl
  | cons j js ih => rw [ofJsonList, ih, map_cons]

/-- What an object is read as, the keys of which are sorted. -/
def readMembers (es : List (Text × AnyValue)) : List (Text × AnyValue) :=
  (es.insertionSort keyLe).map fun e => (e.1, ofJson (canonical e.2))

theorem ofJson_canonical_map (es : List (Text × AnyValue)) :
    ofJson (canonical (.map es)) = sentinelOrMap (readMembers es) := by
  have hsort : (canonicalMembers es).insertionSort keyLe =
      (es.insertionSort keyLe).map fun e => (e.1, canonical e.2) := by
    rw [canonicalMembers_eq]
    exact (map_insertionSort keyLe keyLe (fun e => (e.1, canonical e.2)) es fun _ _ _ _ => Iff.rfl).symm
  rw [canonical, ofJson, hsort, ofJsonMembers_eq, map_map]
  rfl

/-- An integer is read back. -/
theorem ofJson_canonical_int (i : Int64) : ofJson (canonical (.int i)) = .int i := by
  rw [canonical]
  split
  · rename_i hnonneg
    have hle : 0 ≤ i := Int64.le_iff_toInt_le.mpr hnonneg
    have hsmall : i.toUInt64.toNat < 2 ^ 63 := by
      rw [Int64.toNat_toUInt64_of_le hle, Int64.toNatClampNeg]
      have hlt := i.toInt_lt
      omega
    rw [ofJson, if_pos hsmall, Int64.toInt64_toUInt64]
  · rfl

variable {es : List (Text × AnyValue)}

/-- The entries that are read back are those that were written. -/
theorem mem_readMembers {key : Text} {v : AnyValue} :
    (key, v) ∈ readMembers es ↔ ∃ a, (key, a) ∈ es ∧ ofJson (canonical a) = v := by
  unfold readMembers
  rw [mem_map]
  constructor
  · rintro ⟨⟨k, a⟩, hmem, heq⟩
    obtain ⟨rfl, rfl⟩ := Prod.mk.inj heq
    exact ⟨a, (mem_insertionSort _).mp hmem, rfl⟩
  · rintro ⟨a, hmem, rfl⟩
    exact ⟨(key, a), (mem_insertionSort _).mpr hmem, rfl⟩

theorem nodup_readMembers (h : (es.map Prod.fst).Nodup) : ((readMembers es).map Prod.fst).Nodup := by
  unfold readMembers
  rw [map_map]
  exact ((perm_insertionSort keyLe es).map Prod.fst).nodup_iff.mpr h

/-- A key below all others is first. -/
theorem insertionSort_concat_least {β : Type} {es : List (Text × β)} {a : Text × β} (h : ∀ e ∈ es, a.1 < e.1) :
    (es ++ [a]).insertionSort keyLe = a :: es.insertionSort keyLe := by
  induction es with
  | nil => rfl
  | cons e es ih =>
    have he : ¬keyLe e a := not_le_of_gt (h e mem_cons_self)
    rw [cons_append, insertionSort_cons, ih fun e he => h e (mem_cons_of_mem _ he),
      orderedInsert_cons, if_neg he, insertionSort_cons]

theorem readMembers_concat_least {a : Text × AnyValue} (h : ∀ e ∈ es, a.1 < e.1) :
    readMembers (es ++ [a]) = (a.1, ofJson (canonical a.2)) :: readMembers es := by
  rw [readMembers, insertionSort_concat_least h, map_cons]
  rfl

end Imbh.Core
