import Imbh.Lib.Entries

/-!
# The bottom-k sketch (`accum.rs`)

A map keeps the entries of the `cap` names that hash smallest. The hashes are those of any order with a
greatest element, of which `u64` is one; the entries are in the order of their keys, as in a `BTreeMap`.

* `sketch_exact` — a run keeps the least hashes, and merging the parts in any way gives the same map.
-/

namespace Imbh.Attrstats

open Lib List Function

section

variable {κ V : Type} [LinearOrder κ] [OrderTop κ]

/-- Source: `accum.rs` `SampledMap` -/
structure SampledMap (κ V : Type) where
  entries : List (κ × V)
  cap : ℕ
  dropped : Bool
  bound : κ
  deriving DecidableEq

namespace SampledMap

/-- Source: `accum.rs` `SampledMap::new` -/
def new (cap : ℕ) : SampledMap κ V := ⟨[], max cap 1, false, ⊤⟩

def containsKey (m : SampledMap κ V) (h : κ) : Bool := hasEntry h m.entries

/-- Source: `accum.rs` `SampledMap::max_hash` -/
def maxHash (m : SampledMap κ V) : κ := (m.entries.getLast?.map Prod.fst).getD ⊤

/-- Source: `accum.rs` `SampledMap::note_drop` -/
def noteDrop (m : SampledMap κ V) : SampledMap κ V :=
  { m with
    dropped := true
    bound := min m.bound m.maxHash }

/-- The map, and whether it has an entry for the name of the hash.
Source: `accum.rs` `SampledMap::entry` -/
def entry (m : SampledMap κ V) (h : κ) (make : V) : SampledMap κ V × Bool :=
  if m.containsKey h then (m, true)
  else if m.dropped && decide (m.bound < h) then (m, false)
  else if m.cap ≤ m.entries.length then
    if m.maxHash ≤ h then (m.noteDrop, false)
    else (noteDrop { m with entries := insertEntry h make m.entries.dropLast }, true)
  else ({ m with entries := insertEntry h make m.entries }, true)

/-- What a caller does with the entry, if there is one. -/
def observe (m : SampledMap κ V) (h : κ) (make : V) (f : V → V) : SampledMap κ V :=
  match m.entry h make with
  | (m, true) => { m with entries := modifyEntry h f m.entries }
  | (m, false) => m

/-- Source: `accum.rs` `SampledMap::merge` -/
def merge (combine : V → V → V) (m other : SampledMap κ V) : SampledMap κ V :=
  let entries := joinEntries combine m.entries other.entries
  let dropped := m.dropped || other.dropped
  let bound := if other.dropped then min m.bound other.bound else m.bound
  let entries := if dropped then entries.rdropWhile fun e => bound < e.1 else entries
  let dropped := dropped || decide (m.cap < entries.length)
  let merged : SampledMap κ V := { m with entries := entries.take m.cap, dropped := dropped, bound := bound }
  if dropped then { merged with bound := min bound merged.maxHash } else merged

end SampledMap

/-- The arithmetic of doubles in the report. -/
structure RateArith (κ F : Type) where
  ofLen : ℕ → F
  ofHash : κ → F
  one : F
  two64 : F
  add : F → F → F
  div : F → F → F

variable {F : Type} (arith : RateArith κ F)

/-- Source: `accum.rs` `SampledMap::sample_rate` -/
def SampledMap.sampleRate (m : SampledMap κ V) : F :=
  if m.dropped then arith.div (arith.add (arith.ofHash m.bound) arith.one) arith.two64 else arith.one

/-- Source: `accum.rs` `SampledMap::estimated_total` -/
def SampledMap.estimatedTotal (m : SampledMap κ V) : F :=
  if m.dropped then arith.div (arith.ofLen m.entries.length) (m.sampleRate arith)
  else arith.ofLen m.entries.length

end

/-! ## What a map is -/

section

variable {κ V : Type} [LinearOrder κ] [OrderTop κ]

/-- The map of some hashes: it has the bottom of them, each with its history. -/
structure Sketches (cap : ℕ) (seen : Finset κ) (history : κ → V) (m : SampledMap κ V) : Prop where
  cap_eq : m.cap = cap
  ascending : Ascending m.entries
  entries : ∀ h v, (h, v) ∈ m.entries ↔ h ∈ bottom cap seen ∧ v = history h
  dropped : m.dropped = decide (cap < seen.card)
  bound : if cap < seen.card then m.bound ∈ bottom cap seen ∧ ∀ h ∈ bottom cap seen, h ≤ m.bound else m.bound = ⊤

namespace Sketches

variable {cap : ℕ} {seen : Finset κ} {history : κ → V} {m : SampledMap κ V}

theorem new (cap : ℕ) (history : κ → V) : Sketches (max cap 1) ∅ history (.new cap) where
  cap_eq := rfl
  ascending := Pairwise.nil
  entries h v := by simp [SampledMap.new, mem_bottom]
  dropped := rfl
  bound := by
    rw [if_neg (by simp)]
    rfl

section

variable (hm : Sketches cap seen history m)
include hm

theorem keys_eq : keySet m.entries = bottom cap seen := by
  ext h
  rw [mem_keySet]
  constructor
  · rintro ⟨v, hv⟩
    exact ((hm.entries h v).mp hv).1
  · intro hh
    exact ⟨history h, (hm.entries h _).mpr ⟨hh, rfl⟩⟩

theorem containsKey_iff {h : κ} : m.containsKey h = true ↔ h ∈ bottom cap seen := by
  rw [SampledMap.containsKey, hasEntry, decide_eq_true_eq, ← hm.keys_eq, keySet, mem_toFinset]

theorem length_eq : m.entries.length = min cap seen.card := by
  rw [← hm.ascending.card_keySet, hm.keys_eq, card_bottom]

theorem ne_nil (hpos : 0 < cap) (hfull : cap ≤ seen.card) : m.entries ≠ [] := by
  intro hnil
  have hlen := hm.length_eq
  rw [hnil, length_nil] at hlen
  omega

/-- The greatest hash of a map that is not empty. -/
theorem maxHash_spec (hne : m.entries ≠ []) :
    m.maxHash ∈ bottom cap seen ∧ ∀ h ∈ bottom cap seen, h ≤ m.maxHash := by
  obtain ⟨front, h, v, hsplit, -, hfront⟩ := hm.ascending.exists_last hne
  have hmax : m.maxHash = h := by
    rw [SampledMap.maxHash, hsplit, getLast?_append]
    rfl
  rw [hmax, ← hm.keys_eq, hsplit]
  refine ⟨mem_keySet.mpr ⟨v, mem_append_right _ (mem_singleton_self _)⟩, fun x hx => ?_⟩
  obtain ⟨w, hw⟩ := mem_keySet.mp hx
  rcases mem_append.mp hw with hw | hw
  · exact (hfront _ hw).le
  · exact (Prod.mk.inj (mem_singleton.mp hw)).1.le

/-- The bound after a drop is the greatest hash that is kept. -/
theorem min_bound {b : κ} (hb : b ∈ bottom cap seen) (hmax : ∀ h ∈ bottom cap seen, h ≤ b) : min m.bound b = b := by
  have hbound := hm.bound
  split at hbound
  · rw [le_antisymm (hmax _ hbound.1) (hbound.2 _ hb)]
    exact min_self b
  · rw [hbound]
    exact min_eq_right le_top

/-- The histories of hashes that are not kept do not matter. -/
theorem congr {history' : κ → V} (h : ∀ x ∈ bottom cap seen, history' x = history x) : Sketches cap seen history' m where
  cap_eq := hm.cap_eq
  ascending := hm.ascending
  entries x v := by
    rw [hm.entries]
    exact and_congr_right fun hx => (by rw [h x hx])
  dropped := hm.dropped
  bound := hm.bound

/-- Changing the entry of a name keeps the bottom-k sketch. -/
theorem modify (x : κ) (f : V → V) :
    Sketches cap seen (update history x (f (history x))) { m with entries := modifyEntry x f m.entries } where
  cap_eq := hm.cap_eq
  ascending := hm.ascending.modifyEntry x f
  entries h v := by
    rw [mem_modifyEntry]
    constructor
    · rintro ⟨w, hw, rfl⟩
      obtain ⟨hh, rfl⟩ := (hm.entries h w).mp hw
      refine ⟨hh, ?_⟩
      by_cases hx : h = x
      · rw [if_pos hx, hx, update_self]
      · rw [if_neg hx, update_of_ne hx]
    · rintro ⟨hh, rfl⟩
      refine ⟨history h, (hm.entries h _).mpr ⟨hh, rfl⟩, ?_⟩
      by_cases hx : h = x
      · rw [if_pos hx, hx, update_self]
      · rw [if_neg hx, update_of_ne hx]
  dropped := hm.dropped
  bound := hm.bound

/-- The bound depends on the hashes alone. -/
theorem bound_eq {history' : κ → V} {m' : SampledMap κ V} (hm' : Sketches cap seen history' m') :
    m.bound = m'.bound := by
  have h := hm.bound
  have h' := hm'.bound
  split at h
  · rename_i hfull
    rw [if_pos hfull] at h'
    exact le_antisymm (h'.2 _ h.1) (h.2 _ h'.1)
  · rename_i hroom
    rw [if_neg hroom] at h'
    rw [h, h']

/-- A map is determined by what it is of. -/
theorem eq {m' : SampledMap κ V} (hm' : Sketches cap seen history m') : m = m' := by
  have hentries : m.entries = m'.entries := hm.ascending.ext hm'.ascending fun e => by
    rw [hm.entries e.1 e.2, hm'.entries e.1 e.2]
  have hbound := hm.bound_eq hm'
  obtain ⟨entries, cap', dropped, bound⟩ := m
  obtain ⟨entries', cap'', dropped', bound'⟩ := m'
  obtain rfl : entries = entries' := hentries
  obtain rfl : cap' = cap'' := hm.cap_eq.trans hm'.cap_eq.symm
  obtain rfl : dropped = dropped' := hm.dropped.trans hm'.dropped.symm
  obtain rfl : bound = bound' := hbound
  rfl

end

/-- A map of which the greatest hash is known after a drop. -/
theorem noteDrop_of {entries : List (κ × V)} {b : κ} (hcap : m.cap = cap) (hs : Ascending entries)
    (hentries : ∀ h v, (h, v) ∈ entries ↔ h ∈ bottom cap seen ∧ v = history h) (hfull : cap < seen.card)
    (hpos : 0 < cap) (hbound : ∀ b' ∈ bottom cap seen, (∀ h ∈ bottom cap seen, h ≤ b') → min b b' = b') :
    Sketches cap seen history (SampledMap.noteDrop { m with entries := entries, bound := b }) := by
  have hkeys : keySet entries = bottom cap seen := by
    ext h
    rw [mem_keySet]
    exact ⟨fun ⟨v, hv⟩ => ((hentries h v).mp hv).1, fun hh => ⟨history h, (hentries h _).mpr ⟨hh, rfl⟩⟩⟩
  have hne : entries ≠ [] := by
    rintro rfl
    have hcard := card_bottom cap seen
    rw [← hkeys] at hcard
    have hzero : (keySet ([] : List (κ × V))).card = 0 := rfl
    omega
  obtain ⟨front, h, v, hsplit, -, hfront⟩ := hs.exists_last hne
  have hlast : h ∈ bottom cap seen := ((hentries h v).mp (hsplit ▸ mem_append_right _ mem_cons_self)).1
  have hmax : ∀ x ∈ bottom cap seen, x ≤ h := by
    intro x hx
    rw [← hkeys, hsplit] at hx
    obtain ⟨w, hw⟩ := mem_keySet.mp hx
    rcases mem_append.mp hw with hw | hw
    · exact (hfront _ hw).le
    · exact (Prod.mk.inj (mem_singleton.mp hw)).1.le
  have hmaxHash : (SampledMap.maxHash { m with entries := entries, bound := b }) = h := by
    rw [SampledMap.maxHash, hsplit, getLast?_append]
    rfl
  refine ⟨hcap, hs, hentries, (decide_eq_true hfull).symm, ?_⟩
  rw [if_pos hfull, SampledMap.noteDrop, hmaxHash]
  dsimp only
  rw [hbound h hlast hmax]
  exact ⟨hlast, hmax⟩

/-- One more hash takes the place of the greatest one. -/
theorem evict (hm : Sketches cap seen history m) (hpos : 0 < cap) {x : κ} (hkept : x ∉ bottom cap seen)
    (hfull : cap ≤ seen.card) (hworse : ¬ m.maxHash ≤ x) {make : V} (hnew : x ∉ seen → history x = make) :
    Sketches cap (insert x seen) history
        (SampledMap.noteDrop { m with entries := insertEntry x make m.entries.dropLast }) ∧
      x ∈ bottom cap (insert x seen) := by
  have hne := hm.ne_nil hpos hfull
  obtain ⟨hmaxMem, hmax⟩ := hm.maxHash_spec hne
  have hlt := not_le.mp hworse
  have hx : x ∉ seen := fun hx => hkept (mem_bottom_of_le hmaxMem hx hlt.le)
  have hbottom := bottom_insert_of_gt hfull hx hmaxMem hmax hlt
  have hover : cap < (insert x seen).card := by
    rw [Finset.card_insert_of_notMem hx]
    exact Nat.lt_succ_of_le hfull
  obtain ⟨front, h, v, hsplit, hfront, hbelow⟩ := hm.ascending.exists_last hne
  have hlast : h = m.maxHash := by
    rw [SampledMap.maxHash, hsplit, getLast?_append]
    rfl
  have hmem (e : κ × V) : e ∈ front ↔ e ∈ m.entries ∧ e.1 ≠ m.maxHash := by
    rw [hsplit, mem_append, mem_singleton, ← hlast]
    constructor
    · intro he
      exact ⟨.inl he, (hbelow e he).ne⟩
    · rintro ⟨he | rfl, hne⟩
      · exact he
      · exact absurd rfl hne
  have habsent : x ∉ keySet front := by
    intro hmem'
    obtain ⟨w, hw⟩ := mem_keySet.mp hmem'
    exact hkept ((hm.entries x w).mp ((hmem _).mp hw).1).1
  rw [hsplit, dropLast_concat]
  refine ⟨?_, hbottom ▸ Finset.mem_insert_self x _⟩
  apply noteDrop_of (m := m) hm.cap_eq (hfront.insertEntry habsent make) _ hover hpos
  · intro b' hb' hmax'
    rw [hbottom] at hb'
    have hle : b' ≤ m.maxHash := by
      rcases Finset.mem_insert.mp hb' with rfl | hb'
      · exact hlt.le
      · exact hmax b' (Finset.mem_of_mem_erase hb')
    exact min_eq_right (hle.trans (min_eq_right_iff.mp (hm.min_bound hmaxMem hmax)))
  · intro y w
    rw [mem_insertEntry, hmem, hm.entries, hbottom, Finset.mem_insert, Finset.mem_erase]
    constructor
    · rintro (heq | ⟨⟨hy, rfl⟩, hne'⟩)
      · obtain ⟨rfl, rfl⟩ := Prod.mk.inj heq
        exact ⟨.inl rfl, (hnew hx).symm⟩
      · exact ⟨.inr ⟨hne', hy⟩, rfl⟩
    · rintro ⟨rfl | ⟨hne', hy⟩, rfl⟩
      · exact .inl (by rw [hnew hx])
      · exact .inr ⟨⟨hy, rfl⟩, hne'⟩

/-- There is room for one more hash. -/
theorem fill (hm : Sketches cap seen history m) {x : κ} (hkept : x ∉ bottom cap seen) (hroom : seen.card < cap)
    {make : V} (hnew : x ∉ seen → history x = make) :
    Sketches cap (insert x seen) history { m with entries := insertEntry x make m.entries } ∧
      x ∈ bottom cap (insert x seen) := by
  have hall : bottom cap seen = seen := bottom_eq_self hroom.le
  have hx : x ∉ seen := hall ▸ hkept
  have hcard : (insert x seen).card ≤ cap := by
    rw [Finset.card_insert_of_notMem hx]
    exact hroom
  have hbottom : bottom cap (insert x seen) = insert x seen := bottom_eq_self hcard
  have hbound := hm.bound
  rw [if_neg (not_lt.mpr hroom.le)] at hbound
  refine ⟨⟨hm.cap_eq, ?_, fun y w => ?_, ?_, ?_⟩, hbottom.symm ▸ Finset.mem_insert_self x seen⟩
  · apply hm.ascending.insertEntry
    rw [hm.keys_eq]
    exact hkept
  · rw [mem_insertEntry, hm.entries, hbottom, hall, Finset.mem_insert]
    constructor
    · rintro (heq | ⟨hy, rfl⟩)
      · obtain ⟨rfl, rfl⟩ := Prod.mk.inj heq
        exact ⟨.inl rfl, (hnew hx).symm⟩
      · exact ⟨.inr hy, rfl⟩
    · rintro ⟨rfl | hy, rfl⟩
      · exact .inl (by rw [hnew hx])
      · exact .inr ⟨hy, rfl⟩
  · rw [hm.dropped, decide_eq_false (not_lt.mpr hroom.le), decide_eq_false (not_lt.mpr hcard)]
  · rw [if_neg (not_lt.mpr hcard)]
    exact hbound

/-- One more hash, whose history is new. -/
theorem entry (hm : Sketches cap seen history m) (hpos : 0 < cap) (x : κ) {make : V}
    (hnew : x ∉ seen → history x = make) :
    Sketches cap (insert x seen) history (m.entry x make).1 ∧
      ((m.entry x make).2 = true ↔ x ∈ bottom cap (insert x seen)) := by
  unfold SampledMap.entry
  by_cases hkept : x ∈ bottom cap seen
  · -- the hash is there already
    rw [if_pos (hm.containsKey_iff.mpr hkept), Finset.insert_eq_of_mem (bottom_subset cap seen hkept)]
    exact ⟨hm, iff_of_true rfl hkept⟩
  · rw [if_neg fun h => hkept (hm.containsKey_iff.mp h)]
    by_cases hbeyond : (m.dropped && decide (m.bound < x)) = true
    · rw [if_pos hbeyond]
      rw [Bool.and_eq_true, decide_eq_true_eq, hm.dropped, decide_eq_true_eq] at hbeyond
      have hbound := hm.bound
      rw [if_pos hbeyond.1] at hbound
      obtain ⟨hbottom, hfull⟩ := bottom_insert_of_beyond hbeyond.1.le hkept fun h hh =>
        (hbound.2 h hh).trans_lt hbeyond.2
      rw [hbottom]
      refine ⟨⟨hm.cap_eq, hm.ascending, ?_, ?_, ?_⟩, iff_of_false Bool.false_ne_true hkept⟩
      · rw [hbottom]
        exact hm.entries
      · rw [hm.dropped, decide_eq_true hbeyond.1, decide_eq_true hfull]
      · rw [if_pos hfull, hbottom]
        exact hbound
    · have hlen : m.cap ≤ m.entries.length ↔ cap ≤ seen.card := by
        rw [hm.cap_eq, hm.length_eq]
        omega
      rw [if_neg hbeyond]
      by_cases hfull : cap ≤ seen.card
      · rw [if_pos (hlen.mpr hfull)]
        by_cases hworse : m.maxHash ≤ x
        · rw [if_pos hworse]
          obtain ⟨hmaxMem, hmax⟩ := hm.maxHash_spec (hm.ne_nil hpos hfull)
          have hlt : m.maxHash < x := lt_of_le_of_ne hworse fun heq => hkept (heq ▸ hmaxMem)
          obtain ⟨hbottom, hover⟩ := bottom_insert_of_beyond hfull hkept fun h hh => (hmax h hh).trans_lt hlt
          rw [hbottom]
          refine ⟨?_, iff_of_false Bool.false_ne_true hkept⟩
          apply noteDrop_of (m := m) hm.cap_eq hm.ascending _ hover hpos
          · rw [hbottom]
            exact fun b' hb' hmax' => hm.min_bound hb' hmax'
          · rw [hbottom]
            exact hm.entries
        · rw [if_neg hworse]
          exact (hm.evict hpos hkept hfull hworse hnew).imp_right fun hmem => iff_of_true rfl hmem
      · rw [if_neg fun h => hfull (hlen.mp h)]
        exact (hm.fill hkept (not_le.mp hfull) hnew).imp_right fun hmem => iff_of_true rfl hmem

/-- An observation counts in the history of its hash. -/
theorem observe (hm : Sketches cap seen history m) (hpos : 0 < cap) (x : κ) {make : V}
    (hnew : x ∉ seen → history x = make) (f : V → V) :
    Sketches cap (insert x seen) (update history x (f (history x))) (m.observe x make f) := by
  obtain ⟨hentry, hkept⟩ := hm.entry hpos x hnew
  unfold SampledMap.observe
  rcases heq : m.entry x make with ⟨m', _ | _⟩
  · rw [heq] at hentry hkept
    apply hentry.congr
    intro y hy
    apply update_of_ne
    rintro rfl
    exact absurd (hkept.mpr hy) Bool.false_ne_true
  · rw [heq] at hentry
    exact hentry.modify x f

/-! ### Merging -/

/-- The bound of a map that has dropped an entry is above what is least in any larger set. -/
theorem le_bound (hm : Sketches cap seen history m) {all : Finset κ} (hsub : seen ⊆ all) {h : κ}
    (hh : h ∈ bottom cap all) : h ≤ m.bound := by
  have hbound := hm.bound
  split at hbound
  · rename_i hfull
    exact le_of_mem_bottom hfull.le hbound.2 hsub hh
  · rw [hbound]
    exact le_top

/-- What is least in a larger set has its history, if it was seen. -/
theorem valueAt_eq (hm : Sketches cap seen history m) {all : Finset κ} (hsub : seen ⊆ all) {h : κ}
    (hh : h ∈ bottom cap all) : valueAt m.entries h = if h ∈ seen then some (history h) else none := by
  split
  · rename_i hmem
    rw [hm.ascending.valueAt_eq_some, hm.entries]
    exact ⟨mem_bottom_of_subset hsub hmem hh, rfl⟩
  · rename_i hnot
    rw [valueAt_eq_none, hm.keys_eq]
    exact fun h' => hnot (bottom_subset cap seen h')

/-- Merging two maps gives the map of all their hashes. -/
theorem merge {a b : SampledMap κ V} {seenA seenB : Finset κ} {historyA historyB : κ → V} {combine : V → V → V}
    (ha : Sketches cap seenA historyA a) (hb : Sketches cap seenB historyB b) (hpos : 0 < cap)
    (hboth : ∀ h ∈ seenA, h ∈ seenB → history h = combine (historyA h) (historyB h))
    (hleft : ∀ h ∈ seenA, h ∉ seenB → history h = historyA h)
    (hright : ∀ h ∈ seenB, h ∉ seenA → history h = historyB h) :
    Sketches cap (seenA ∪ seenB) history (a.merge combine b) := by
  have hasc := @Ascending.joinEntries _ _ _ _ b.entries ha.ascending combine
  have hvalues := valueAt_joinEntries ha.ascending hb.ascending combine
  have hkeys := keySet_joinEntries ha.ascending hb.ascending combine
  rw [ha.keys_eq, hb.keys_eq] at hkeys
  unfold SampledMap.merge
  dsimp only
  generalize joinEntries combine a.entries b.entries = joined at hasc hvalues hkeys ⊢
  set dropped := a.dropped || b.dropped with hdropped
  set bound := if b.dropped then min a.bound b.bound else a.bound with hboundDef
  set trimmed := if dropped then joined.rdropWhile fun e => bound < e.1 else joined with htrimmed
  -- the bound is above all that is to be kept
  have hle : ∀ h ∈ bottom cap (seenA ∪ seenB), h ≤ bound := by
    intro h hh
    have hA := ha.le_bound Finset.subset_union_left hh
    have hB := hb.le_bound Finset.subset_union_right hh
    rw [hboundDef]
    split
    · exact le_min hA hB
    · exact hA
  have hmemTrimmed (e : κ × V) : e ∈ trimmed ↔ e ∈ joined ∧ (dropped = true → e.1 ≤ bound) := by
    rw [htrimmed]
    split
    · rename_i hd
      rw [hasc.rdropWhile_eq, mem_filter, decide_eq_true_eq]
      exact and_congr_right fun _ => ⟨fun h _ => h, fun h => h hd⟩
    · rename_i hd
      exact ⟨fun h => ⟨h, fun h' => absurd h' hd⟩, fun h => h.1⟩
  have htrimmedAsc : Ascending trimmed := by
    rw [htrimmed]
    split
    · rw [hasc.rdropWhile_eq]
      exact hasc.sublist filter_sublist
    · exact hasc
  have hbetween : bottom cap (seenA ∪ seenB) ⊆ keySet trimmed := by
    intro h hh
    have hmem : h ∈ keySet joined := hkeys ▸ bottom_union_subset cap seenA seenB hh
    obtain ⟨v, hv⟩ := mem_keySet.mp hmem
    exact mem_keySet.mpr ⟨v, (hmemTrimmed _).mpr ⟨hv, fun _ => hle h hh⟩⟩
  have hwithin : keySet trimmed ⊆ seenA ∪ seenB := by
    intro h hh
    obtain ⟨v, hv⟩ := mem_keySet.mp hh
    have hmem : h ∈ keySet joined := mem_keySet.mpr ⟨v, ((hmemTrimmed _).mp hv).1⟩
    rw [hkeys] at hmem
    exact Finset.union_subset_union (bottom_subset cap seenA) (bottom_subset cap seenB) hmem
  have hbottom : bottom cap (keySet trimmed) = bottom cap (seenA ∪ seenB) := bottom_of_between hbetween hwithin
  have hentries (h : κ) (v : V) : (h, v) ∈ trimmed.take a.cap ↔ h ∈ bottom cap (seenA ∪ seenB) ∧ v = history h := by
    rw [ha.cap_eq, htrimmedAsc.mem_take, hbottom, and_comm]
    refine and_congr_right fun hh => ?_
    rw [hmemTrimmed, and_iff_left fun _ => hle h hh, ← hasc.valueAt_eq_some, hvalues, ha.valueAt_eq Finset.subset_union_left hh,
      hb.valueAt_eq Finset.subset_union_right hh]
    rcases Finset.mem_union.mp (bottom_subset cap _ hh) with hmem | hmem
    · by_cases hother : h ∈ seenB
      · simp [hmem, hother, hboth h hmem hother, joinValues, eq_comm]
      · simp [hmem, hother, hleft h hmem hother, joinValues, eq_comm]
    · by_cases hother : h ∈ seenA
      · simp [hmem, hother, hboth h hother hmem, joinValues, eq_comm]
      · simp [hmem, hother, hright h hmem hother, joinValues, eq_comm]
  have hfinal : (dropped || decide (a.cap < trimmed.length)) = decide (cap < (seenA ∪ seenB).card) := by
    have hA := Finset.card_le_card (Finset.subset_union_left : seenA ⊆ seenA ∪ seenB)
    have hB := Finset.card_le_card (Finset.subset_union_right : seenB ⊆ seenA ∪ seenB)
    have hlen := Finset.card_le_card hwithin
    rw [htrimmedAsc.card_keySet] at hlen
    rw [ha.cap_eq, Bool.eq_iff_iff, Bool.or_eq_true, decide_eq_true_eq, decide_eq_true_eq]
    by_cases hd : dropped = true
    · refine iff_of_true (.inl hd) ?_
      rw [hdropped, ha.dropped, hb.dropped, Bool.or_eq_true, decide_eq_true_eq, decide_eq_true_eq] at hd
      omega
    · -- nothing was dropped, so all is there
      have hsame : trimmed.length = (seenA ∪ seenB).card := by
        have hfew := hd
        rw [hdropped, ha.dropped, hb.dropped, Bool.or_eq_true, decide_eq_true_eq, decide_eq_true_eq, not_or, not_lt,
          not_lt] at hfew
        rw [← htrimmedAsc.card_keySet, htrimmed, if_neg hd, hkeys, bottom_eq_self hfew.1, bottom_eq_self hfew.2]
      rw [or_iff_right hd, hsame]
  have hrest : dropped = false → bound = ⊤ := by
    intro hd
    have hfew : seenA.card ≤ cap ∧ b.dropped = false := by
      rw [hdropped, ha.dropped, Bool.or_eq_false_iff, decide_eq_false_iff_not, not_lt] at hd
      exact hd
    have hbound := ha.bound
    rw [if_neg (not_lt.mpr hfew.1)] at hbound
    rw [hboundDef, hfew.2, if_neg Bool.false_ne_true, hbound]
  have htake : Ascending (trimmed.take a.cap) := htrimmedAsc.sublist (take_sublist _ _)
  rw [hfinal]
  by_cases hfull : cap < (seenA ∪ seenB).card
  · rw [decide_eq_true hfull, if_pos rfl]
    exact noteDrop_of (m := a) ha.cap_eq htake hentries hfull hpos fun b' hb' _ => min_eq_right (hle b' hb')
  · rw [decide_eq_false hfull, if_neg Bool.false_ne_true]
    refine ⟨ha.cap_eq, htake, hentries, (decide_eq_false hfull).symm, ?_⟩
    rw [if_neg hfull]
    apply hrest
    have hnone := hfinal
    rw [decide_eq_false hfull, Bool.or_eq_false_iff] at hnone
    exact hnone.1

end Sketches

/-! ### Maps as views of a dictionary -/

/-- A dictionary with room for all names. -/
abbrev Dictionary (κ V : Type) : Type := κ → Option V

/-- What a caller does with the entry of a dictionary, which always has one. -/
def Dictionary.record (dict : Dictionary κ V) (h : κ) (make : V) (f : V → V) : Dictionary κ V :=
  update dict h (some (f ((dict h).getD make)))

/-- The map has the entries of the dictionary that hash smallest. -/
def Views (cap : ℕ) (dict : Dictionary κ V) (m : SampledMap κ V) : Prop :=
  ∃ seen history, (∀ h, dict h = if h ∈ seen then some (history h) else none) ∧ Sketches cap seen history m

namespace Views

variable {cap : ℕ} {dict : Dictionary κ V} {m : SampledMap κ V}

theorem new [Inhabited V] (cap : ℕ) : Views (max cap 1) (fun _ => none) (.new cap : SampledMap κ V) :=
  ⟨∅, fun _ => default, fun h => by simp, .new cap _⟩

theorem mem (hm : Views cap dict m) {h : κ} {v : V} (hmem : (h, v) ∈ m.entries) : dict h = some v := by
  obtain ⟨seen, history, hdict, hsketches⟩ := hm
  obtain ⟨hbottom, rfl⟩ := (hsketches.entries h v).mp hmem
  rw [hdict, if_pos (bottom_subset cap seen hbottom)]

/-- The map follows the dictionary, whatever it drops. -/
theorem observe (hm : Views cap dict m) (hpos : 0 < cap) (x : κ) (make : V) (f : V → V) :
    Views cap (dict.record x make f) (m.observe x make f) := by
  obtain ⟨seen, history, hdict, hsketches⟩ := hm
  -- the history of a name that was not seen may be what it is made as
  have hstart : Sketches cap seen (fun h => (dict h).getD make) m := by
    apply hsketches.congr
    intro h hh
    rw [hdict, if_pos (bottom_subset cap seen hh), Option.getD_some]
  have hnew : x ∉ seen → (dict x).getD make = make := by
    intro hx
    rw [hdict, if_neg hx, Option.getD_none]
  refine ⟨insert x seen, _, fun h => ?_, hstart.observe hpos x hnew f⟩
  by_cases hx : h = x
  · subst hx
    simp [Dictionary.record]
  · rw [Dictionary.record, update_of_ne hx, update_of_ne hx, hdict]
    by_cases hh : h ∈ seen <;> simp [hx, hh]

/-- A map with room for all keys drops none. -/
theorem valueAt_of_room (hm : Views cap dict m) {room : Finset κ} (hroom : ∀ h, (dict h).isSome → h ∈ room)
    (hcard : room.card ≤ cap) (h : κ) : valueAt m.entries h = dict h := by
  obtain ⟨seen, history, hdict, hsketches⟩ := hm
  have hsub : seen ⊆ room := fun x hx => hroom x (by rw [hdict, if_pos hx]; rfl)
  have hall : bottom cap seen = seen := bottom_eq_self ((Finset.card_le_card hsub).trans hcard)
  rw [hdict]
  by_cases hh : h ∈ seen
  · exact hsketches.valueAt_eq subset_rfl (hall.symm ▸ hh)
  · rw [if_neg hh, valueAt_eq_none, hsketches.keys_eq, hall]
    exact hh

/-- It has the entries of the dictionary. -/
theorem mem_of_room (hm : Views cap dict m) {room : Finset κ} (hroom : ∀ h, (dict h).isSome → h ∈ room)
    (hcard : room.card ≤ cap) {h : κ} {v : V} (hdict : dict h = some v) : (h, v) ∈ m.entries := by
  have hvalue := (hm.valueAt_of_room hroom hcard h).trans hdict
  obtain ⟨seen, history, -, hsketches⟩ := hm
  exact hsketches.ascending.valueAt_eq_some.mp hvalue

/-- A map is determined by the dictionary that it views. -/
theorem eq {m' : SampledMap κ V} (hm : Views cap dict m) (hm' : Views cap dict m') : m = m' := by
  obtain ⟨seen, history, hdict, hsketches⟩ := hm
  obtain ⟨seen', history', hdict', hsketches'⟩ := hm'
  have hmem (h : κ) : h ∈ seen ↔ h ∈ seen' := by
    have heq := (hdict h).symm.trans (hdict' h)
    by_cases hh : h ∈ seen <;> by_cases hh' : h ∈ seen' <;> simp [hh, hh'] at heq ⊢
  obtain rfl : seen = seen' := Finset.ext hmem
  apply hsketches.eq
  apply hsketches'.congr
  intro h hh
  have heq := (hdict h).symm.trans (hdict' h)
  rwa [if_pos (bottom_subset cap seen hh), if_pos (bottom_subset cap seen hh), Option.some.injEq] at heq

end Views

end

/-! ## Runs and folds -/

section

variable {N κ V W : Type} [LinearOrder κ] (hash : N → κ)

/-- The hashes of the names of some observations. -/
def hashesOf (obs : List (N × V)) : Finset κ := (obs.map fun o => hash o.1).toFinset

/-- All that was observed of a hash. -/
def historyOf (make : V) (obs : List (N × (V → V))) (h : κ) : V :=
  (obs.filter fun o => hash o.1 = h).foldl (fun v o => o.2 v) make

theorem historyOf_of_notMem {make : V} {obs : List (N × (V → V))} {h : κ} (hnot : h ∉ hashesOf hash obs) :
    historyOf hash make obs h = make := by
  have hnil : (obs.filter fun o => hash o.1 = h) = [] := by
    apply filter_eq_nil_iff.mpr
    intro o ho heq
    exact hnot (mem_toFinset.mpr (mem_map.mpr ⟨o, ho, of_decide_eq_true heq⟩))
  rw [historyOf, hnil, foldl_nil]

/-- Counters that are added up. -/
def counting [Add W] (obs : List (N × W)) : List (N × (W → W)) := obs.map fun o => (o.1, (· + o.2))

theorem hashesOf_counting [Add W] (obs : List (N × W)) : hashesOf hash (counting obs) = hashesOf hash obs := by
  rw [hashesOf, hashesOf, counting, map_map]
  rfl

/-- The history of a hash is the sum over the names that have it. -/
theorem historyOf_counting [AddCommMonoid W] (obs : List (N × W)) (h : κ) :
    historyOf hash 0 (counting obs) h = ((obs.filter fun o => hash o.1 = h).map Prod.snd).sum := by
  induction obs using List.reverseRecOn with
  | nil => rfl
  | append_singleton obs o ih =>
    rw [historyOf, counting, map_append, filter_append, foldl_append]
    change ([(o.1, fun x : W => x + o.2)].filter fun o => hash o.1 = h).foldl (fun v o => o.2 v)
      (historyOf hash 0 (counting obs) h) = _
    rw [ih, filter_append, map_append, sum_append]
    by_cases heq : hash o.1 = h
    · simp [heq]
    · simp [heq]

variable [OrderTop κ] (cap : ℕ)

/-- A run of observations, each of which changes the entry of its name. -/
def scan (make : V) (obs : List (N × (V → V))) : SampledMap κ V :=
  obs.foldl (fun m o => m.observe (hash o.1) make o.2) (.new cap)

/-- A scan keeps the least hashes that it met, with their histories. -/
theorem scan_sketches (make : V) (obs : List (N × (V → V))) :
    Sketches (max cap 1) (hashesOf hash obs) (historyOf hash make obs) (scan hash cap make obs) := by
  induction obs using List.reverseRecOn with
  | nil => exact Sketches.new cap _
  | append_singleton obs o ih =>
    have hstep := ih.observe (by omega) (hash o.1) (historyOf_of_notMem hash) o.2
    have hseen : hashesOf hash (obs ++ [o]) = insert (hash o.1) (hashesOf hash obs) := by
      rw [hashesOf, hashesOf, map_append, toFinset_append, Finset.union_comm]
      rfl
    rw [scan, foldl_append, hseen]
    apply hstep.congr
    intro h _
    unfold historyOf
    rw [filter_append, foldl_append]
    by_cases heq : h = hash o.1
    · simp [heq]
    · simp [update_of_ne heq, Ne.symm heq]

/-- Parts of the observations, and in which order they are merged. -/
inductive Parts (α : Type)
  | part (obs : List α)
  | merge (left right : Parts α)

def Parts.observations {α : Type} : Parts α → List α
  | part obs => obs
  | merge left right => left.observations ++ right.observations

/-- Each part is sketched with the same cap, and the sketches are merged. -/
def Parts.sketch [AddCommMonoid W] : Parts (N × W) → SampledMap κ W
  | part obs => scan hash cap 0 (counting obs)
  | merge left right => (left.sketch).merge (· + ·) right.sketch

/-- Any merge of parts is a sketch of all their observations. -/
theorem Parts.sketches [AddCommMonoid W] (parts : Parts (N × W)) :
    Sketches (max cap 1) (hashesOf hash parts.observations) (historyOf hash 0 (counting parts.observations))
      (parts.sketch hash cap) := by
  induction parts with
  | part obs =>
    rw [← hashesOf_counting]
    exact scan_sketches hash cap 0 (counting obs)
  | merge left right ihl ihr =>
    have hseen : hashesOf hash (merge left right).observations =
        hashesOf hash left.observations ∪ hashesOf hash right.observations := by
      rw [hashesOf, observations, map_append, toFinset_append]
      rfl
    have hadd (h : κ) : historyOf hash 0 (counting (merge left right).observations) h =
        historyOf hash 0 (counting left.observations) h + historyOf hash 0 (counting right.observations) h := by
      rw [historyOf_counting, historyOf_counting, historyOf_counting, observations, filter_append, map_append,
        sum_append]
    have hzero {part : Parts (N × W)} {h : κ} (hnot : h ∉ hashesOf hash part.observations) :
        historyOf hash 0 (counting part.observations) h = 0 :=
      historyOf_of_notMem hash (by rwa [hashesOf_counting])
    rw [hseen]
    refine ihl.merge ihr (by omega) (fun h _ _ => hadd h) (fun h _ hnot => ?_) fun h _ hnot => ?_
    · rw [hadd, hzero hnot, add_zero]
    · rw [hadd, hzero hnot, zero_add]

end

/-- **The sketch is a function of what was observed.** It keeps the names of the least hashes, each with its whole
history; what it says of the population depends on the names alone; and merging the sketches of parts, in any order
and grouping, gives the sketch of all. -/
theorem sketch_exact {N κ V W F : Type} [DecidableEq N] [LinearOrder κ] [OrderTop κ] [AddCommMonoid W] (hash : N → κ)
    (cap : ℕ) (arith : RateArith κ F) (make : V) (obs : List (N × (V → V)))
    (hinj : ∀ a ∈ obs.map Prod.fst, ∀ b ∈ obs.map Prod.fst, hash a = hash b → a = b) :
    (∀ n ∈ obs.map Prod.fst, ∀ v, (hash n, v) ∈ (scan hash cap make obs).entries ↔
      hash n ∈ bottom (max cap 1) ((obs.map Prod.fst).toFinset.image hash) ∧
        v = (obs.filter fun o => o.1 = n).foldl (fun v o => o.2 v) make) ∧
    (∀ e ∈ (scan hash cap make obs).entries, ∃ n ∈ obs.map Prod.fst, hash n = e.1) ∧
    (∀ obs' : List (N × (V → V)), (∀ n, n ∈ obs'.map Prod.fst ↔ n ∈ obs.map Prod.fst) →
      (scan hash cap make obs').dropped = (scan hash cap make obs).dropped ∧
      (scan hash cap make obs').bound = (scan hash cap make obs).bound ∧
      (scan hash cap make obs').sampleRate arith = (scan hash cap make obs).sampleRate arith ∧
      (scan hash cap make obs').estimatedTotal arith = (scan hash cap make obs).estimatedTotal arith) ∧
    ∀ (parts : Parts (N × W)) (all : List (N × W)), parts.observations.Perm all →
      parts.sketch hash cap = scan hash cap 0 (counting all) := by
  have hscan := scan_sketches hash cap make obs
  have hnames : hashesOf hash obs = (obs.map Prod.fst).toFinset.image hash := by
    ext h
    simp [hashesOf]
  refine ⟨fun n hn v => ?_, fun e he => ?_, fun obs' hsame => ?_, fun parts all hperm => ?_⟩
  · have hfilter : (obs.filter fun o => hash o.1 = hash n) = obs.filter fun o => o.1 = n := by
      apply filter_congr
      intro o ho
      exact decide_eq_decide.mpr ⟨hinj o.1 (mem_map_of_mem ho) n hn, fun h => by rw [h]⟩
    rw [hscan.entries, hnames, historyOf, hfilter]
  · have hmem := bottom_subset _ _ ((hscan.entries e.1 e.2).mp he).1
    rw [hnames, Finset.mem_image] at hmem
    obtain ⟨n, hn, heq⟩ := hmem
    exact ⟨n, mem_toFinset.mp hn, heq⟩
  · have hscan' := scan_sketches hash cap make obs'
    have hseen : hashesOf hash obs' = hashesOf hash obs := by
      ext h
      simp only [hashesOf, mem_toFinset, mem_map]
      constructor
      · rintro ⟨o, ho, rfl⟩
        obtain ⟨o', ho', heq⟩ := mem_map.mp ((hsame o.1).mp (mem_map_of_mem ho))
        exact ⟨o', ho', by rw [heq]⟩
      · rintro ⟨o, ho, rfl⟩
        obtain ⟨o', ho', heq⟩ := mem_map.mp ((hsame o.1).mpr (mem_map_of_mem ho))
        exact ⟨o', ho', by rw [heq]⟩
    rw [hseen] at hscan'
    have hdropped : (scan hash cap make obs').dropped = (scan hash cap make obs).dropped := by
      rw [hscan'.dropped, hscan.dropped]
    have hlen : (scan hash cap make obs').entries.length = (scan hash cap make obs).entries.length := by
      rw [hscan'.length_eq, hscan.length_eq]
    have hbound := hscan'.bound_eq hscan
    have hrate : (scan hash cap make obs').sampleRate arith = (scan hash cap make obs).sampleRate arith := by
      rw [SampledMap.sampleRate, SampledMap.sampleRate, hdropped, hbound]
    refine ⟨hdropped, hbound, hrate, ?_⟩
    rw [SampledMap.estimatedTotal, SampledMap.estimatedTotal, hdropped, hlen, hrate]
  · have hparts := parts.sketches hash cap
    have hall := scan_sketches hash cap 0 (counting all)
    have hseen : hashesOf hash parts.observations = hashesOf hash (counting all) := by
      rw [hashesOf_counting, hashesOf, hashesOf]
      ext h
      rw [mem_toFinset, mem_toFinset, (hperm.map _).mem_iff]
    rw [hseen] at hparts
    apply hparts.eq
    apply hall.congr
    intro h _
    rw [historyOf_counting, historyOf_counting]
    exact ((hperm.filter _).map Prod.snd).sum_eq

/-! ### Three names in a map of two -/

/-- Numbers as names that hash to themselves. -/
def smallHash (n : ℕ) : Fin 8 := Fin.ofNat 8 n

def threeNames : List (ℕ × ℕ) := [(5, 1), (1, 1), (3, 1), (5, 1), (1, 1)]

/-- Numbers in place of doubles. -/
def wholeRate : RateArith (Fin 8) ℕ := ⟨id, Fin.val, 1, 8, (· + ·), (· / ·)⟩

theorem sketch_exact_threeNames :
    (1, 2) ∈ (scan smallHash 2 0 (counting threeNames)).entries ∧
      (Parts.merge (.part (threeNames.drop 2)) (.part (threeNames.take 2))).sketch smallHash 2 =
        scan smallHash 2 0 (counting threeNames) := by
  obtain ⟨hkept, -, -, hparts⟩ := sketch_exact (W := ℕ) smallHash 2 wholeRate 0 (counting threeNames) (by decide)
  exact ⟨(hkept 1 (by decide) 2).mpr (by decide), hparts _ threeNames (by decide)⟩

end Imbh.Attrstats
