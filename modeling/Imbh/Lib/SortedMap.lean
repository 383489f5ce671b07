import Mathlib.Data.List.Dedup
import Mathlib.Data.List.Sort

/-!
# Sorted maps

A map as the list of its pairs, sorted by key. `ofPairs` collects pairs, of which the last one of a
key counts.
-/

namespace Imbh.Lib

open List Option

/-- A sorted list without duplicates is determined by its elements. -/
theorem insertionSort_dedup_congr {α : Type} [DecidableEq α] {r : α → α → Prop} [DecidableRel r]
    [Std.Total r] [IsTrans α r] (hanti : ∀ a b, r a b → r b a → a = b) {l l' : List α}
    (h : ∀ x, x ∈ l ↔ x ∈ l') : l.dedup.insertionSort r = l'.dedup.insertionSort r := by
  have hperm : l.dedup.Perm l'.dedup := by
    apply (perm_ext_iff_of_nodup (nodup_dedup _) (nodup_dedup _)).mpr
    intro x
    rw [mem_dedup, mem_dedup, h]
  apply Perm.eq_of_pairwise _ (pairwise_insertionSort _ _) (pairwise_insertionSort _ _)
  · exact ((perm_insertionSort _ _).trans hperm).trans (perm_insertionSort _ _).symm
  · exact fun a b _ _ => hanti a b

variable {κ β : Type} [LinearOrder κ] {l : List (κ × β)}

/-- The value of the last pair of a key. -/
def lastValue (l : List (κ × β)) (k : κ) : Option β :=
  (l.reverse.find? fun kv => kv.1 = k).map Prod.snd

/-- The map of the pairs, sorted by key. -/
def ofPairs (l : List (κ × β)) : List (κ × β) :=
  ((l.map Prod.fst).dedup.insertionSort (· ≤ ·)).filterMap fun k => (lastValue l k).map fun v => (k, v)

/-- A key that occurs has a last value. -/
theorem lastValue_ne_none {k : κ} : lastValue l k ≠ none ↔ k ∈ l.map Prod.fst := by
  rw [lastValue, ne_eq, Option.map_eq_none_iff, List.find?_eq_none, List.mem_map]
  constructor
  · intro h
    by_contra hnone
    apply h
    intro kv hkv hk
    exact hnone ⟨kv, List.mem_reverse.mp hkv, of_decide_eq_true hk⟩
  · rintro ⟨kv, hkv, rfl⟩ hall
    exact hall kv (List.mem_reverse.mpr hkv) (decide_eq_true rfl)

/-- The later list counts first. -/
theorem lastValue_append (l m : List (κ × β)) (k : κ) :
    lastValue (l ++ m) k = (lastValue m k).or (lastValue l k) := by
  unfold lastValue
  rw [reverse_append, find?_append, map_or]

theorem mem_of_lastValue {k : κ} {v : β} (h : lastValue l k = some v) : (k, v) ∈ l := by
  obtain ⟨kv, hkv, rfl⟩ := map_eq_some_iff.mp h
  have hk : kv.1 = k := by simpa using find?_some hkv
  rw [← hk]
  exact mem_reverse.mp (mem_of_find?_eq_some hkv)

/-- Where a key has one value only, it is the last one. -/
theorem lastValue_eq_some_iff (hone : ∀ a ∈ l, ∀ b ∈ l, a.1 = b.1 → a = b) {k : κ} {v : β} :
    lastValue l k = some v ↔ (k, v) ∈ l := by
  constructor
  · exact mem_of_lastValue
  · intro h
    have hne : lastValue l k ≠ none := lastValue_ne_none.mpr (mem_map.mpr ⟨_, h, rfl⟩)
    obtain ⟨w, hw⟩ := ne_none_iff_exists'.mp hne
    have heq := hone _ (mem_of_lastValue hw) _ h rfl
    rw [hw, (Prod.mk.inj heq).2]

/-- The map has the last value of each key. -/
theorem mem_ofPairs {k : κ} {v : β} : (k, v) ∈ ofPairs l ↔ lastValue l k = some v := by
  unfold ofPairs
  rw [mem_filterMap]
  constructor
  · rintro ⟨k', _, hk'⟩
    obtain ⟨w, hw, heq⟩ := map_eq_some_iff.mp hk'
    obtain ⟨rfl, rfl⟩ := Prod.mk.inj heq
    exact hw
  · intro h
    refine ⟨k, ?_, by rw [h]; rfl⟩
    rw [mem_insertionSort, mem_dedup]
    exact lastValue_ne_none.mp (by rw [h]; simp)

/-- The value that a map has at a key is the last one. -/
theorem find?_ofPairs (l : List (κ × β)) (k : κ) :
    ((ofPairs l).find? fun kv => kv.1 = k).map Prod.snd = lastValue l k := by
  have hsound : ∀ kv, (ofPairs l).find? (fun kv => kv.1 = k) = some kv → lastValue l k = some kv.2 := by
    intro kv hfind
    have hk : kv.1 = k := by simpa using find?_some hfind
    rw [← hk]
    exact mem_ofPairs.mp (mem_of_find?_eq_some hfind)
  rcases hfind : (ofPairs l).find? fun kv => kv.1 = k with _ | kv
  · rw [hfind, map_none]
    symm
    by_contra hne
    obtain ⟨v, hv⟩ := ne_none_iff_exists'.mp hne
    exact find?_eq_none.mp hfind (k, v) (mem_ofPairs.mpr hv) (decide_eq_true rfl)
  · rw [hfind]
    exact (hsound kv hfind).symm

/-- Two lists of pairs give one map, if and only if each key has one last value. -/
theorem ofPairs_eq_iff {l' : List (κ × β)} : ofPairs l = ofPairs l' ↔ ∀ k, lastValue l k = lastValue l' k := by
  constructor
  · intro h k
    ext v
    rw [← mem_ofPairs, ← mem_ofPairs, h]
  · intro h
    have hkeys : (l.map Prod.fst).dedup.insertionSort (· ≤ ·) =
        (l'.map Prod.fst).dedup.insertionSort (· ≤ ·) := by
      apply insertionSort_dedup_congr fun _ _ => le_antisymm
      intro k
      rw [← lastValue_ne_none, ← lastValue_ne_none, h k]
    unfold ofPairs
    rw [hkeys]
    apply filterMap_congr
    intro k _
    rw [h k]

end Imbh.Lib
