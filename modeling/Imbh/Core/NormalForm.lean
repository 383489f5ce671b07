import Mathlib.Data.List.Perm.Subperm
import Imbh.Core.Canonical
import Imbh.Core.JsonWriter

/-!
# Normal forms of attribute values

Canonical JSON does not keep everything: bytes are written as a string, all NaNs alike, and a double that JSON cannot
write as an object that a map may be too. `settle` is a value with that done to it; `Same` is equality up to the order
of the entries of maps.
-/

namespace Imbh.Core

open Lib List

/-! ## Sorted entries -/

section

variable {β : Type}

instance : Std.Total (keyLe : Text × β → Text × β → Prop) := ⟨fun a b => le_total a.1 b.1⟩

instance : IsTrans (Text × β) keyLe := ⟨fun _ _ _ hab hbc => le_trans hab hbc⟩

/-- Entries of distinct keys are the same when sorted exactly if they are as many and the same. -/
theorem insertionSort_eq_iff {l m : List (Text × β)} (hl : (l.map Prod.fst).Nodup) (hm : (m.map Prod.fst).Nodup) :
    l.insertionSort keyLe = m.insertionSort keyLe ↔ l.length = m.length ∧ ∀ e ∈ l, e ∈ m := by
  constructor
  · intro h
    have hperm : l.Perm m := (perm_insertionSort keyLe l).symm.trans (h ▸ perm_insertionSort keyLe m)
    exact ⟨hperm.length_eq, fun e he => hperm.subset he⟩
  · rintro ⟨hlen, hsub⟩
    have hperm : l.Perm m := (subperm_of_subset hl.of_map hsub).perm_of_length_le hlen.ge
    refine Perm.eq_of_pairwise ?_ (pairwise_insertionSort keyLe l) (pairwise_insertionSort keyLe m)
      ((perm_insertionSort keyLe l).trans (hperm.trans (perm_insertionSort keyLe m).symm))
    intro a b ha hb hab hba
    have ha := hperm.subset ((mem_insertionSort _).mp ha)
    exact inj_on_of_nodup_map hm ha ((mem_insertionSort _).mp hb) (le_antisymm hab hba)

end

namespace AnyValue

/-! ## Settled values -/

mutual

/-- Bytes as the string, and a sentinel as the double, that they are written and read as. -/
def settle : AnyValue → AnyValue
  | .bytes b => .str (base64Encode b)
  | .array items => .array (settleItems items)
  | .map entries => sentinelOrMap (settleEntries entries)
  | v => v

def settleItems : List AnyValue → List AnyValue
  | [] => []
  | v :: vs => settle v :: settleItems vs

def settleEntries : List (Text × AnyValue) → List (Text × AnyValue)
  | [] => []
  | (k, v) :: es => (k, settle v) :: settleEntries es

end

mutual

/-- The entries of all maps are sorted, and all NaNs are one. -/
def arrange : AnyValue → AnyValue
  | .double d => .double (if F64.isNaN d then 0x7ff8000000000000 else d)
  | .array items => .array (arrangeItems items)
  | .map entries => .map ((arrangeEntries entries).insertionSort keyLe)
  | v => v

def arrangeItems : List AnyValue → List AnyValue
  | [] => []
  | v :: vs => arrange v :: arrangeItems vs

def arrangeEntries : List (Text × AnyValue) → List (Text × AnyValue)
  | [] => []
  | (k, v) :: es => (k, arrange v) :: arrangeEntries es

end

mutual

/-- Equal up to the order of the entries of maps; a NaN is equal to a NaN. -/
def Same : AnyValue → AnyValue → Prop
  | .double d, w => ∃ e, w = .double e ∧ (d = e ∨ F64.isNaN d = true ∧ F64.isNaN e = true)
  | .array vs, w => ∃ ws, w = .array ws ∧ SameItems vs ws
  | .map es, w => ∃ fs, w = .map fs ∧ es.length = fs.length ∧ SameEntries es fs
  | v, w => v = w

def SameItems : List AnyValue → List AnyValue → Prop
  | [], ws => ws = []
  | v :: vs, ws => ∃ w ws', ws = w :: ws' ∧ Same v w ∧ SameItems vs ws'

def SameEntries : List (Text × AnyValue) → List (Text × AnyValue) → Prop
  | [], _ => True
  | (k, v) :: es, fs => (∃ w, (k, w) ∈ fs ∧ Same v w) ∧ SameEntries es fs

end

mutual

/-- The keys of each map are distinct. -/
def DistinctKeys : AnyValue → Prop
  | .array items => ItemsDistinct items
  | .map entries => (entries.map Prod.fst).Nodup ∧ EntriesDistinct entries
  | _ => True

def ItemsDistinct : List AnyValue → Prop
  | [] => True
  | v :: vs => DistinctKeys v ∧ ItemsDistinct vs

def EntriesDistinct : List (Text × AnyValue) → Prop
  | [] => True
  | (_, v) :: es => DistinctKeys v ∧ EntriesDistinct es

end

theorem settleEntries_eq (es : List (Text × AnyValue)) : settleEntries es = es.map fun e => (e.1, settle e.2) := by
  induction es with
  | nil => rfl
  | cons e es ih => rw [settleEntries, ih, map_cons]

theorem arrangeEntries_eq (es : List (Text × AnyValue)) : arrangeEntries es = es.map fun e => (e.1, arrange e.2) := by
  induction es with
  | nil => rfl
  | cons e es ih => rw [arrangeEntries, ih, map_cons]

theorem entriesDistinct_iff {es : List (Text × AnyValue)} : EntriesDistinct es ↔ ∀ e ∈ es, e.2.DistinctKeys := by
  induction es with
  | nil => simp [EntriesDistinct]
  | cons e es ih =>
    obtain ⟨k, v⟩ := e
    rw [EntriesDistinct, ih, forall_mem_cons]

/-! ## What is read back -/

theorem arrange_eq_str {v : AnyValue} {s : Text} : arrange v = .str s ↔ v = .str s := by
  constructor
  · intro h
    cases v with
    | str t => exact h
    | _ => cases h
  · rintro rfl
    rfl

/-- Arranging changes no sentinel. -/
theorem arrange_sentinelOrMap (es : List (Text × AnyValue)) :
    arrange (sentinelOrMap es) = sentinelOrMap ((arrangeEntries es).insertionSort keyLe) := by
  rcases hes : sentinelOf es with _ | d
  · have hnone : sentinelOf ((arrangeEntries es).insertionSort keyLe) = none := by
      by_contra hsome
      obtain ⟨tag, hmem, heq⟩ := sentinelOf_isSome_iff.mp (Option.isSome_iff_ne_none.mpr hsome)
      have hperm := perm_insertionSort keyLe (arrangeEntries es)
      rw [heq, arrangeEntries_eq] at hperm
      obtain ⟨⟨k, v⟩, rfl, hkv⟩ := map_eq_singleton_iff.mp (singleton_perm.mp hperm).symm
      obtain ⟨rfl, hv⟩ := Prod.mk.inj hkv
      obtain rfl := arrange_eq_str.mp hv
      have hsentinel := sentinelOf_isSome_iff.mpr ⟨tag, hmem, rfl⟩
      rw [hes] at hsentinel
      cases hsentinel
    rw [sentinelOrMap, hes, sentinelOrMap, hnone]
    rfl
  · obtain ⟨tag, hmem, rfl⟩ := sentinelOf_isSome_iff.mp (by rw [hes]; rfl)
    have hsame : (arrangeEntries [("$f".toList, .str tag)]).insertionSort keyLe = [("$f".toList, .str tag)] := rfl
    rw [hsame]
    simp only [sentinelTags, mem_cons, not_mem_nil, or_false] at hmem
    rcases hmem with rfl | rfl | rfl <;> rfl

/-- A double is read back, but for the payload of a NaN. -/
theorem ofJson_canonicalDouble (d : F64) : ofJson (canonicalDouble d) = arrange (.double d) := by
  unfold canonicalDouble
  dsimp only
  split
  · rename_i hnan
    rw [arrange, if_pos hnan]
    rfl
  rename_i hnan
  rw [arrange, if_neg hnan]
  split
  · rename_i hmagnitude
    -- the sign and the magnitude are all of it
    have hbits : d.toNat = if F64.isNegative d then 2 ^ 63 + 0x7ff * 2 ^ 52 else 0x7ff * 2 ^ 52 := by
      unfold F64.magnitude at hmagnitude
      unfold F64.isNegative
      have hlt := d.isLt
      simp only [decide_eq_true_eq]
      split <;> omega
    split
    · rename_i hnegative
      rw [if_pos hnegative] at hbits
      have hd : d = 0xfff0000000000000 := BitVec.eq_of_toNat_eq hbits
      rw [hd]
      rfl
    · rename_i hpositive
      rw [if_neg hpositive] at hbits
      have hd : d = 0x7ff0000000000000 := BitVec.eq_of_toNat_eq hbits
      rw [hd]
      rfl
  · rfl

mutual

/-- What is read back of the tree of a value. -/
theorem ofJson_canonical (v : AnyValue) : ofJson (canonical v) = arrange (settle v) := by
  cases v with
  | int i => exact ofJson_canonical_int i
  | double d => exact ofJson_canonicalDouble d
  | array items =>
    rw [canonical, ofJson, settle, arrange, ofJson_canonicalItems items]
  | map entries =>
    rw [ofJson_canonical_map, settle, arrange_sentinelOrMap, ← readMembers_eq entries]
  | _ => rfl

theorem ofJson_canonicalItems (vs : List AnyValue) : ofJsonList (canonicalItems vs) = arrangeItems (settleItems vs) := by
  cases vs with
  | nil => rfl
  | cons v vs =>
    rw [canonicalItems, ofJsonList, settleItems, arrangeItems, ofJson_canonical v, ofJson_canonicalItems vs]

theorem ofJson_canonicalEntries (es : List (Text × AnyValue)) :
    (es.map fun e => (e.1, ofJson (canonical e.2))) = arrangeEntries (settleEntries es) := by
  cases es with
  | nil => rfl
  | cons e es =>
    obtain ⟨k, v⟩ := e
    rw [map_cons, settleEntries, arrangeEntries, ofJson_canonical v, ofJson_canonicalEntries es]

theorem readMembers_eq (es : List (Text × AnyValue)) :
    readMembers es = (arrangeEntries (settleEntries es)).insertionSort keyLe := by
  rw [← ofJson_canonicalEntries es]
  exact map_insertionSort keyLe keyLe (fun e => (e.1, ofJson (canonical e.2))) es fun _ _ _ _ => Iff.rfl

end

/-! ## What is written again -/

theorem canonicalMembers_sorted (es : List (Text × AnyValue)) :
    canonicalMembers (es.insertionSort keyLe) = (canonicalMembers es).insertionSort keyLe := by
  rw [canonicalMembers_eq, canonicalMembers_eq]
  exact map_insertionSort keyLe keyLe (fun e => (e.1, canonical e.2)) es fun _ _ _ _ => Iff.rfl

mutual

/-- Sorting the entries does not change the tree. -/
theorem canonical_arrange (v : AnyValue) : canonical (arrange v) = canonical v := by
  cases v with
  | double d =>
    rw [arrange]
    split
    · rename_i hnan
      have hd : canonicalDouble d = .map [("$f".toList, .str "nan".toList)] := if_pos hnan
      rw [canonical, canonical, hd]
      rfl
    · rfl
  | array items => rw [arrange, canonical, canonical, canonicalItems_arrange items]
  | map entries =>
    rw [arrange, canonical, canonical, canonicalMembers_sorted, canonicalMembers_arrange entries]
    exact congrArg Json.map (pairwise_insertionSort keyLe _).insertionSort_eq
  | _ => rfl

theorem canonicalItems_arrange (vs : List AnyValue) : canonicalItems (arrangeItems vs) = canonicalItems vs := by
  cases vs with
  | nil => rfl
  | cons v vs => rw [arrangeItems, canonicalItems, canonicalItems, canonical_arrange v, canonicalItems_arrange vs]

theorem canonicalMembers_arrange (es : List (Text × AnyValue)) :
    canonicalMembers (arrangeEntries es) = canonicalMembers es := by
  cases es with
  | nil => rfl
  | cons e es =>
    obtain ⟨k, v⟩ := e
    rw [arrangeEntries, canonicalMembers, canonicalMembers, canonical_arrange v, canonicalMembers_arrange es]

end

/-- A sentinel is written as the object that it was. -/
theorem canonical_sentinelOrMap (es : List (Text × AnyValue)) : canonical (sentinelOrMap es) = canonical (.map es) := by
  rcases hes : sentinelOf es with _ | d
  · rw [sentinelOrMap, hes]
  · obtain ⟨tag, hmem, rfl⟩ := sentinelOf_isSome_iff.mp (by rw [hes]; rfl)
    simp only [sentinelTags, mem_cons, not_mem_nil, or_false] at hmem
    rcases hmem with rfl | rfl | rfl <;> rfl

mutual

theorem canonical_settle (v : AnyValue) : canonical (settle v) = canonical v := by
  cases v with
  | array items => rw [settle, canonical, canonical, canonicalItems_settle items]
  | map entries =>
    rw [settle, canonical_sentinelOrMap, canonical, canonical, canonicalMembers_settle entries]
  | _ => rfl

theorem canonicalItems_settle (vs : List AnyValue) : canonicalItems (settleItems vs) = canonicalItems vs := by
  cases vs with
  | nil => rfl
  | cons v vs => rw [settleItems, canonicalItems, canonicalItems, canonical_settle v, canonicalItems_settle vs]

theorem canonicalMembers_settle (es : List (Text × AnyValue)) :
    canonicalMembers (settleEntries es) = canonicalMembers es := by
  cases es with
  | nil => rfl
  | cons e es =>
    obtain ⟨k, v⟩ := e
    rw [settleEntries, canonicalMembers, canonicalMembers, canonical_settle v, canonicalMembers_settle es]

end

/-- What is read back is written as the value was. -/
theorem canonical_ofJson (v : AnyValue) : canonical (ofJson (canonical v)) = canonical v := by
  rw [ofJson_canonical, canonical_arrange, canonical_settle]

/-- Values are written alike exactly if they are equal when settled and arranged. -/
theorem canonical_eq_iff (v w : AnyValue) : canonical v = canonical w ↔ arrange (settle v) = arrange (settle w) := by
  rw [← ofJson_canonical, ← ofJson_canonical]
  constructor
  · exact congrArg ofJson
  · intro h
    rw [← canonical_ofJson v, h, canonical_ofJson]

/-! ## Equality up to order -/

/-- Only doubles are arranged alike to a double. -/
theorem arrange_eq_double {d : F64} {w : AnyValue} : arrange (.double d) = arrange w ↔
    ∃ e, w = .double e ∧ (d = e ∨ F64.isNaN d = true ∧ F64.isNaN e = true) := by
  constructor
  · intro h
    cases w with
    | double e =>
      have h := AnyValue.double.inj h
      refine ⟨e, rfl, ?_⟩
      split at h
      · rename_i hd
        split at h
        · rename_i he
          exact .inr ⟨hd, he⟩
        · rename_i he
          rw [← h] at he
          exact absurd rfl he
      · rename_i hd
        split at h
        · rename_i he
          rw [h] at hd
          exact absurd rfl hd
        · exact .inl h
    | _ => cases h
  · rintro ⟨e, rfl, rfl | ⟨hd, he⟩⟩
    · rfl
    · rw [arrange, arrange, if_pos hd, if_pos he]

/-- The entries of maps, if those of equal arrangement are the same. -/
theorem arrange_eq_map {es : List (Text × AnyValue)} {w : AnyValue} (hes : (es.map Prod.fst).Nodup)
    (hw : w.DistinctKeys) : arrange (.map es) = arrange w ↔ ∃ fs, w = .map fs ∧ es.length = fs.length ∧
      ∀ e ∈ es, ∃ f ∈ fs, f.1 = e.1 ∧ arrange e.2 = arrange f.2 := by
  have hkeys (l : List (Text × AnyValue)) : (arrangeEntries l).map Prod.fst = l.map Prod.fst := by
    rw [arrangeEntries_eq, map_map]
    rfl
  have hsorted {fs : List (Text × AnyValue)} (hfs : (fs.map Prod.fst).Nodup) :
      (arrangeEntries es).insertionSort keyLe = (arrangeEntries fs).insertionSort keyLe ↔
        es.length = fs.length ∧ ∀ e ∈ es, ∃ f ∈ fs, f.1 = e.1 ∧ arrange e.2 = arrange f.2 := by
    rw [insertionSort_eq_iff (by rwa [hkeys]) (by rwa [hkeys]), arrangeEntries_eq, arrangeEntries_eq,
      length_map, length_map, forall_mem_map]
    refine and_congr Iff.rfl (forall₂_congr fun e _ => ?_)
    rw [mem_map]
    constructor
    · rintro ⟨f, hf, heq⟩
      obtain ⟨hkey, hvalue⟩ := Prod.mk.inj heq
      exact ⟨f, hf, hkey, hvalue.symm⟩
    · rintro ⟨f, hf, hkey, hvalue⟩
      exact ⟨f, hf, Prod.ext hkey hvalue.symm⟩
  constructor
  · intro h
    cases w with
    | map fs => exact ⟨fs, rfl, (hsorted hw.1).mp (AnyValue.map.inj h)⟩
    | _ => cases h
  · rintro ⟨fs, rfl, h⟩
    rw [arrange, arrange, (hsorted hw.1).mpr h]

mutual

/-- Values are the same exactly if they are equal when arranged. -/
theorem same_iff (v w : AnyValue) (hv : v.DistinctKeys) (hw : w.DistinctKeys) :
    Same v w ↔ arrange v = arrange w := by
  cases v with
  | double d => exact arrange_eq_double.symm
  | array items =>
    constructor
    · rintro ⟨ws, rfl, h⟩
      rw [arrange, arrange, (sameItems_iff items ws hv hw).mp h]
    · intro h
      cases w with
      | array ws => exact ⟨ws, rfl, (sameItems_iff items ws hv hw).mpr (AnyValue.array.inj h)⟩
      | _ => cases h
  | map entries =>
    rw [arrange_eq_map hv.1 hw]
    refine exists_congr fun fs => and_congr_right fun hfs => and_congr_right fun _ => ?_
    subst hfs
    exact sameEntries_iff entries fs hv.2 (entriesDistinct_iff.mp hw.2)
  | _ =>
    constructor
    · rintro rfl
      rfl
    · intro h
      cases w with
      | _ => first | exact h | cases h

theorem sameItems_iff (vs ws : List AnyValue) (hv : ItemsDistinct vs) (hw : ItemsDistinct ws) :
    SameItems vs ws ↔ arrangeItems vs = arrangeItems ws := by
  cases vs with
  | nil =>
    constructor
    · rintro rfl
      rfl
    · intro h
      cases ws with
      | nil => rfl
      | cons w ws => cases h
  | cons v vs =>
    constructor
    · rintro ⟨w, ws, rfl, hvw, hrest⟩
      rw [arrangeItems, arrangeItems, (same_iff v w hv.1 hw.1).mp hvw, (sameItems_iff vs ws hv.2 hw.2).mp hrest]
    · intro h
      cases ws with
      | nil => cases h
      | cons w ws =>
        obtain ⟨hvw, hrest⟩ := List.cons.inj h
        exact ⟨w, ws, rfl, (same_iff v w hv.1 hw.1).mpr hvw, (sameItems_iff vs ws hv.2 hw.2).mpr hrest⟩

theorem sameEntries_iff (es fs : List (Text × AnyValue)) (hes : EntriesDistinct es)
    (hfs : ∀ f ∈ fs, f.2.DistinctKeys) :
    SameEntries es fs ↔ ∀ e ∈ es, ∃ f ∈ fs, f.1 = e.1 ∧ arrange e.2 = arrange f.2 := by
  cases es with
  | nil => simp [SameEntries]
  | cons e es =>
    obtain ⟨k, v⟩ := e
    rw [SameEntries, forall_mem_cons, sameEntries_iff es fs hes.2 hfs]
    refine and_congr ⟨?_, ?_⟩ Iff.rfl
    · rintro ⟨w, hw, hvw⟩
      exact ⟨(k, w), hw, rfl, (same_iff v w hes.1 (hfs _ hw)).mp hvw⟩
    · rintro ⟨⟨k', w⟩, hw, rfl, hvw⟩
      exact ⟨w, hw, (same_iff v w hes.1 (hfs _ hw)).mpr hvw⟩

end

mutual

/-- Settled values keep distinct keys. -/
theorem distinctKeys_settle (v : AnyValue) (h : v.DistinctKeys) : v.settle.DistinctKeys := by
  cases v with
  | array items => exact itemsDistinct_settle items h
  | map entries =>
    rw [settle, sentinelOrMap]
    split
    · trivial
    · refine ⟨?_, entriesDistinct_settle entries h.2⟩
      rw [settleEntries_eq, map_map]
      exact h.1
  | _ => trivial

theorem itemsDistinct_settle (vs : List AnyValue) (h : ItemsDistinct vs) : ItemsDistinct (settleItems vs) := by
  cases vs with
  | nil => trivial
  | cons v vs => exact ⟨distinctKeys_settle v h.1, itemsDistinct_settle vs h.2⟩

theorem entriesDistinct_settle (es : List (Text × AnyValue)) (h : EntriesDistinct es) :
    EntriesDistinct (settleEntries es) := by
  cases es with
  | nil => trivial
  | cons e es =>
    obtain ⟨k, v⟩ := e
    exact ⟨distinctKeys_settle v h.1, entriesDistinct_settle es h.2⟩

end

end AnyValue

end Imbh.Core
