import Mathlib.Data.List.DropRight
import Imbh.Lib.BottomK

/-!
# Maps as ascending entries

A map whose keys are in an order, as the list of its entries in that order.
-/

namespace Imbh.Lib

open List Option

variable {κ V : Type} [LinearOrder κ] {entries : List (κ × V)}

/-- A new key is put in its place. -/
def insertEntry (h : κ) (v : V) : List (κ × V) → List (κ × V)
  | [] => [(h, v)]
  | e :: es => if h < e.1 then (h, v) :: e :: es else e :: insertEntry h v es

/-- The value of a key is changed. -/
def modifyEntry (h : κ) (f : V → V) (entries : List (κ × V)) : List (κ × V) :=
  entries.map fun e => if e.1 = h then (e.1, f e.2) else e

/-- The value of a key is computed from the one that it has. -/
def putEntry (h : κ) (f : Option V → V) (entries : List (κ × V)) : List (κ × V) :=
  if h ∈ entries.map Prod.fst then modifyEntry h (fun v => f (some v)) entries else insertEntry h (f none) entries

def hasEntry (h : κ) (entries : List (κ × V)) : Bool := h ∈ entries.map Prod.fst

def valueAt (entries : List (κ × V)) (h : κ) : Option V := (entries.find? fun e => e.1 = h).map Prod.snd

/-- The keys are ascending. -/
def Ascending (entries : List (κ × V)) : Prop := entries.Pairwise fun a b => a.1 < b.1

def keySet (entries : List (κ × V)) : Finset κ := (entries.map Prod.fst).toFinset

theorem mem_keySet {h : κ} : h ∈ keySet entries ↔ ∃ v, (h, v) ∈ entries := by
  simp [keySet]

theorem Ascending.nodup_keys (hs : Ascending entries) : (entries.map Prod.fst).Nodup :=
  pairwise_map.mpr (hs.imp ne_of_lt)

theorem Ascending.card_keySet (hs : Ascending entries) : (keySet entries).card = entries.length := by
  rw [keySet, toFinset_card_of_nodup hs.nodup_keys, length_map]

/-- A key has one value. -/
theorem Ascending.eq_of_mem (hs : Ascending entries) {h : κ} {v w : V} (hv : (h, v) ∈ entries) (hw : (h, w) ∈ entries) :
    v = w :=
  (Prod.mk.inj (inj_on_of_nodup_map hs.nodup_keys hv hw rfl)).2

/-- Ascending entries are determined by their elements. -/
theorem Ascending.ext {entries' : List (κ × V)} (hs : Ascending entries) (hs' : Ascending entries')
    (h : ∀ e, e ∈ entries ↔ e ∈ entries') : entries = entries' := by
  have hnodup {l : List (κ × V)} (hl : Ascending l) : l.Nodup := hl.nodup_keys.of_map _
  apply Perm.eq_of_pairwise _ hs hs' ((perm_ext_iff_of_nodup (hnodup hs) (hnodup hs')).mpr h)
  intro a b _ _ hab hba
  exact absurd hab (not_lt.mpr hba.le)

theorem mem_insertEntry {h : κ} {v : V} {e : κ × V} : e ∈ insertEntry h v entries ↔ e = (h, v) ∨ e ∈ entries := by
  induction entries with
  | nil => rw [insertEntry, mem_singleton, or_iff_left not_mem_nil]
  | cons e' es ih =>
    rw [insertEntry]
    split
    · exact mem_cons
    · rw [mem_cons, ih, mem_cons]
      exact or_left_comm

/-- A new key is inserted in order. -/
theorem Ascending.insertEntry (hs : Ascending entries) {h : κ} (hnew : h ∉ keySet entries) (v : V) :
    Ascending (insertEntry h v entries) := by
  induction entries with
  | nil => exact pairwise_singleton _ _
  | cons e es ih =>
    obtain ⟨hhead, htail⟩ := pairwise_cons.mp hs
    rw [Lib.insertEntry]
    split
    · rename_i hlt
      refine pairwise_cons.mpr ⟨fun e' he' => ?_, hs⟩
      rcases mem_cons.mp he' with rfl | he'
      · exact hlt
      · exact hlt.trans (hhead e' he')
    · rename_i hge
      have hne : h ≠ e.1 := fun heq => hnew (mem_keySet.mpr ⟨e.2, heq ▸ mem_cons_self⟩)
      have hnew' : h ∉ keySet es := fun hmem => by
        obtain ⟨w, hw⟩ := mem_keySet.mp hmem
        exact hnew (mem_keySet.mpr ⟨w, mem_cons_of_mem _ hw⟩)
      refine pairwise_cons.mpr ⟨fun e' he' => ?_, ih htail hnew'⟩
      rcases mem_insertEntry.mp he' with rfl | he'
      · exact lt_of_le_of_ne (not_lt.mp hge) hne.symm
      · exact hhead e' he'

theorem map_fst_modifyEntry (h : κ) (f : V → V) (entries : List (κ × V)) :
    (modifyEntry h f entries).map Prod.fst = entries.map Prod.fst := by
  rw [modifyEntry, List.map_map]
  apply List.map_congr_left
  intro e _
  dsimp only [Function.comp_apply]
  split <;> rfl

theorem Ascending.modifyEntry (hs : Ascending entries) (h : κ) (f : V → V) : Ascending (modifyEntry h f entries) := by
  have hmap : ((Lib.modifyEntry h f entries).map Prod.fst).Pairwise (· < ·) := by
    rw [map_fst_modifyEntry]
    exact pairwise_map.mpr hs
  exact pairwise_map.mp hmap

/-- Only the value at the key changes. -/
theorem mem_modifyEntry {h x : κ} {f : V → V} {v : V} :
    (x, v) ∈ modifyEntry h f entries ↔ ∃ w, (x, w) ∈ entries ∧ v = if x = h then f w else w := by
  rw [modifyEntry, List.mem_map]
  constructor
  · rintro ⟨⟨y, w⟩, he, heq⟩
    split at heq
    · rename_i hyh
      obtain ⟨rfl, rfl⟩ := Prod.mk.inj heq
      exact ⟨w, he, (if_pos hyh).symm⟩
    · rename_i hyh
      obtain ⟨rfl, rfl⟩ := Prod.mk.inj heq
      exact ⟨w, he, (if_neg hyh).symm⟩
  · rintro ⟨w, he, rfl⟩
    refine ⟨(x, w), he, ?_⟩
    dsimp only
    split <;> rfl

/-- The last entry has the greatest key. -/
theorem Ascending.exists_last (hs : Ascending entries) (hne : entries ≠ []) :
    ∃ front h v, entries = front ++ [(h, v)] ∧ Ascending front ∧ ∀ e ∈ front, e.1 < h := by
  obtain ⟨front, ⟨h, v⟩, rfl⟩ := (eq_nil_or_concat' entries).resolve_left hne
  obtain ⟨hfront, -, hlast⟩ := pairwise_append.mp hs
  exact ⟨front, h, v, rfl, hfront, fun e he => hlast e he _ (mem_singleton_self _)⟩

/-! ## Values -/

/-- The value at a key is that of its entry. -/
theorem Ascending.valueAt_eq_some (hs : Ascending entries) {h : κ} {v : V} :
    valueAt entries h = some v ↔ (h, v) ∈ entries := by
  unfold valueAt
  rw [map_eq_some_iff]
  constructor
  · rintro ⟨e, he, rfl⟩
    have hkey : e.1 = h := by simpa using find?_some he
    rw [← hkey]
    exact mem_of_find?_eq_some he
  · intro hv
    rcases hfind : entries.find? fun e => e.1 = h with _ | e
    · exact absurd (decide_eq_true rfl) (find?_eq_none.mp hfind _ hv)
    · have hkey : e.1 = h := by simpa using find?_some hfind
      refine ⟨e, hfind, hs.eq_of_mem (h := h) ?_ hv⟩
      rw [← hkey]
      exact mem_of_find?_eq_some hfind

theorem valueAt_eq_none {h : κ} : valueAt entries h = none ↔ h ∉ keySet entries := by
  rw [valueAt, map_eq_none_iff, find?_eq_none, mem_keySet]
  constructor
  · rintro hall ⟨v, hv⟩
    exact hall _ hv (decide_eq_true rfl)
  · intro hnot e he heq
    exact hnot ⟨e.2, of_decide_eq_true heq ▸ he⟩

/-- Ascending entries are determined by their values. -/
theorem Ascending.ext_valueAt {entries' : List (κ × V)} (hs : Ascending entries) (hs' : Ascending entries')
    (h : ∀ x, valueAt entries x = valueAt entries' x) : entries = entries' :=
  hs.ext hs' fun e => by rw [← hs.valueAt_eq_some, ← hs'.valueAt_eq_some, h]

theorem Ascending.putEntry (hs : Ascending entries) (h : κ) (f : Option V → V) :
    Ascending (putEntry h f entries) := by
  unfold Lib.putEntry
  split
  · exact hs.modifyEntry h _
  · rename_i hnew
    exact hs.insertEntry (fun hmem => hnew (mem_toFinset.mp hmem)) _

/-- What a map has at a key after an entry was put. -/
theorem valueAt_putEntry (hs : Ascending entries) (h : κ) (f : Option V → V) (x : κ) :
    valueAt (putEntry h f entries) x = if x = h then some (f (valueAt entries h)) else valueAt entries x := by
  ext v
  rw [(hs.putEntry h f).valueAt_eq_some]
  unfold putEntry
  split
  · rename_i hold
    obtain ⟨w, hw⟩ := mem_keySet.mp (mem_toFinset.mpr hold)
    rw [mem_modifyEntry, hs.valueAt_eq_some.mpr hw]
    split
    · rename_i hx
      subst hx
      constructor
      · rintro ⟨u, hu, rfl⟩
        rw [hs.eq_of_mem hu hw]
      · intro hv
        exact ⟨w, hw, (some.inj hv).symm⟩
    · rw [hs.valueAt_eq_some]
      exact ⟨fun ⟨u, hu, heq⟩ => heq ▸ hu, fun hv => ⟨v, hv, rfl⟩⟩
  · rename_i hnew
    have hnone : valueAt entries h = none := valueAt_eq_none.mpr fun hmem => hnew (mem_toFinset.mp hmem)
    rw [mem_insertEntry, hnone]
    split
    · rename_i hx
      subst hx
      constructor
      · rintro (heq | hv)
        · rw [(Prod.mk.inj heq).2]
        · rw [hs.valueAt_eq_some.mpr hv] at hnone
          exact nomatch hnone
      · intro hv
        exact .inl (by rw [some.inj hv])
    · rename_i hx
      rw [hs.valueAt_eq_some, or_iff_right fun heq => hx (Prod.mk.inj heq).1]

/-! ## Putting many entries -/

theorem Ascending.foldl_putEntry {γ : Type} (hs : Ascending entries) (key : γ → κ) (f : γ → Option V → V) (l : List γ) :
    Ascending (l.foldl (fun es c => Lib.putEntry (key c) (f c) es) entries) := by
  induction l generalizing entries with
  | nil => exact hs
  | cons c l ih => exact ih (hs.putEntry (key c) (f c))

/-- A key has what was put under it, one after another. -/
theorem valueAt_foldl_putEntry {γ : Type} (hs : Ascending entries) (key : γ → κ) (f : γ → Option V → V) (l : List γ)
    (x : κ) :
    valueAt (l.foldl (fun es c => putEntry (key c) (f c) es) entries) x =
      (l.filter fun c => key c = x).foldl (fun v c => some (f c v)) (valueAt entries x) := by
  induction l generalizing entries with
  | nil => rfl
  | cons c l ih =>
    rw [foldl_cons, ih (hs.putEntry (key c) (f c)), valueAt_putEntry hs, filter_cons]
    by_cases hx : x = key c
    · simp [hx]
    · simp [hx, Ne.symm hx]

/-- What a key has in two maps that are joined. -/
def joinValues (combine : V → V → V) (a : Option V) : Option V → Option V
  | none => a
  | some u => some (a.elim u fun v => combine v u)

/-- The entries of another map are put into a map. -/
def joinEntries (combine : V → V → V) (entries others : List (κ × V)) : List (κ × V) :=
  others.foldl (fun es e => putEntry e.1 (fun cur => cur.elim e.2 fun v => combine v e.2) es) entries

/-- There is at most one entry at a key. -/
theorem Ascending.filter_key (hs : Ascending entries) (x : κ) :
    (entries.filter fun e => e.1 = x) = ((valueAt entries x).map fun v => (x, v)).toList := by
  induction entries with
  | nil => rfl
  | cons e es ih =>
    obtain ⟨hhead, htail⟩ := pairwise_cons.mp hs
    rw [filter_cons, valueAt, find?_cons]
    by_cases hx : e.1 = x
    · have hnil : (es.filter fun e => e.1 = x) = [] := by
        apply filter_eq_nil_iff.mpr
        intro e' he' heq
        have heq' : e'.1 = x := of_decide_eq_true heq
        exact absurd (hhead e' he') (by rw [hx, heq']; exact lt_irrefl x)
      rw [hnil, if_pos (decide_eq_true hx), ← hx]
      simp
    · simp [hx, ih htail, valueAt]

theorem Ascending.joinEntries {others : List (κ × V)} (hs : Ascending entries) (combine : V → V → V) :
    Ascending (joinEntries combine entries others) := hs.foldl_putEntry _ _ _

/-- What it has after all entries of another were. -/
theorem valueAt_joinEntries {others : List (κ × V)} (hs : Ascending entries) (hothers : Ascending others)
    (combine : V → V → V) (x : κ) :
    valueAt (joinEntries combine entries others) x = joinValues combine (valueAt entries x) (valueAt others x) := by
  rw [joinEntries, valueAt_foldl_putEntry hs, hothers.filter_key]
  rcases valueAt others x with _ | u <;> rfl

theorem keySet_joinEntries {others : List (κ × V)} (hs : Ascending entries) (hothers : Ascending others)
    (combine : V → V → V) : keySet (joinEntries combine entries others) = keySet entries ∪ keySet others := by
  ext x
  rw [Finset.mem_union, ← not_iff_not, not_or, ← valueAt_eq_none, ← valueAt_eq_none, ← valueAt_eq_none,
    valueAt_joinEntries hs hothers]
  rcases valueAt entries x with _ | v <;> rcases valueAt others x with _ | u <;> simp [joinValues]

/-! ## The least keys -/

/-- The first entries have the least keys. -/
theorem Ascending.keySet_take (hs : Ascending entries) (k : ℕ) : keySet (entries.take k) = bottom k (keySet entries) := by
  have htake : Ascending (entries.take k) := hs.sublist (take_sublist k entries)
  apply eq_bottom
  · intro h hh
    obtain ⟨v, hv⟩ := mem_keySet.mp hh
    exact mem_keySet.mpr ⟨v, mem_of_mem_take hv⟩
  · rw [htake.card_keySet, hs.card_keySet, length_take]
  · intro a ha b hb hnot
    obtain ⟨v, hv⟩ := mem_keySet.mp ha
    obtain ⟨w, hw⟩ := mem_keySet.mp hb
    rw [← take_append_drop k entries] at hs hw
    rcases mem_append.mp hw with hw | hw
    · exact absurd (mem_keySet.mpr ⟨w, hw⟩) hnot
    · exact (pairwise_append.mp hs).2.2 _ hv _ hw

/-- The first entries are those of the least keys. -/
theorem Ascending.mem_take (hs : Ascending entries) (k : ℕ) {e : κ × V} :
    e ∈ entries.take k ↔ e ∈ entries ∧ e.1 ∈ bottom k (keySet entries) := by
  rw [← hs.keySet_take]
  constructor
  · intro he
    exact ⟨mem_of_mem_take he, mem_keySet.mpr ⟨e.2, he⟩⟩
  · rintro ⟨he, hkey⟩
    obtain ⟨v, hv⟩ := mem_keySet.mp hkey
    have heq := hs.eq_of_mem (mem_of_mem_take hv) he
    rw [heq] at hv
    exact hv

/-- Dropping from the end what is above a bound leaves what is not. -/
theorem Ascending.rdropWhile_eq (hs : Ascending entries) (bound : κ) :
    (entries.rdropWhile fun e => bound < e.1) = entries.filter fun e => e.1 ≤ bound := by
  induction entries using List.reverseRecOn with
  | nil => rfl
  | append_singleton front e ih =>
    obtain ⟨hfront, -, hlast⟩ := pairwise_append.mp hs
    rw [rdropWhile_concat, filter_append]
    split
    · rename_i habove
      rw [ih hfront, filter_cons_of_neg (by simpa using habove), filter_nil, append_nil]
    · rename_i hbelow
      have hle : e.1 ≤ bound := by simpa using hbelow
      rw [filter_eq_self.mpr, filter_cons_of_pos (p := fun e : κ × V => decide (e.1 ≤ bound)) (decide_eq_true hle),
        filter_nil]
      intro e' he'
      exact decide_eq_true ((hlast e' he' e (mem_singleton_self _)).le.trans hle)

end Imbh.Lib
