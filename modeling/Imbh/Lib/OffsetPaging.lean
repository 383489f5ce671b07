import Mathlib.Algebra.BigOperators.Group.Finset.Basic
import Mathlib.Algebra.GroupWithZero.Nat
import Mathlib.Data.List.Sort

/-!
# Paging by offset

Rows are read in pages of a fixed size, each page from an execution of its own that gives all rows in the
order of their ranks and may order rows of one rank as it likes.
-/

namespace Imbh.Lib

open List

variable {ρ κ : Type} [LinearOrder κ] {rank : ρ → κ} {rows : List ρ} {runs : ℕ → List ρ} {size count : ℕ}

/-- An execution: all rows, in the order of their ranks. -/
structure SortedRun (rank : ρ → κ) (rows run : List ρ) : Prop where
  perm : run.Perm rows
  sorted : run.Pairwise fun a b => rank a ≤ rank b

/-- The rows of an execution from an offset on, so many at most. -/
def page (run : List ρ) (offset size : ℕ) : List ρ := (run.drop offset).take size

/-- The first pages, each of an execution of its own. -/
def pages (runs : ℕ → List ρ) (size count : ℕ) : List (List ρ) :=
  (List.range count).map fun k => page (runs k) (k * size) size

/-- A page ends among the rows of a rank. -/
def Straddles (ranks : List κ) (size : ℕ) (r : κ) : Prop :=
  ∃ k, 0 < k ∧ ranks[k * size - 1]? = some r ∧ ranks[k * size]? = some r

theorem SortedRun.ranks_eq {run run' : List ρ} (h : SortedRun rank rows run) (h' : SortedRun rank rows run') :
    run.map rank = run'.map rank :=
  ((h.perm.trans h'.perm.symm).map rank).eq_of_pairwise (fun _ _ _ _ => le_antisymm)
    (pairwise_map.mpr h.sorted) (pairwise_map.mpr h'.sorted)

/-! ## Ranks -/

theorem pages_succ (runs : ℕ → List ρ) (size count : ℕ) :
    pages runs size (count + 1) = pages runs size count ++ [page (runs count) (count * size) size] := by
  unfold pages
  rw [range_succ, map_append]
  rfl

theorem page_map {β : Type} (f : ρ → β) (run : List ρ) (offset size : ℕ) :
    (page run offset size).map f = page (run.map f) offset size := by
  unfold page
  rw [map_take, map_drop]

/-- The first pages of one list are its beginning. -/
theorem flatten_pages_const (run : List ρ) (size count : ℕ) :
    (pages (fun _ => run) size count).flatten = run.take (count * size) := by
  induction count with
  | zero => simp [pages]
  | succ count ih =>
    rw [pages_succ, flatten_append, ih, flatten_singleton, Nat.succ_mul, take_add]
    rfl

theorem flatten_pages_map {β : Type} (f : ρ → β) (runs : ℕ → List ρ) (size count : ℕ) :
    (pages runs size count).flatten.map f = (pages (fun k => (runs k).map f) size count).flatten := by
  unfold pages
  rw [map_flatten, map_map]
  congr 1
  exact map_congr_left fun k _ => page_map f _ _ _

/-- The pages have the ranks of all rows, in order. -/
theorem pages_ranks (hruns : ∀ k, SortedRun rank rows (runs k)) (hcount : rows.length ≤ count * size) :
    (pages runs size count).flatten.map rank = (runs 0).map rank := by
  have hranks : (fun k => (runs k).map rank) = fun _ => (runs 0).map rank :=
    funext fun k => (hruns k).ranks_eq (hruns 0)
  rw [flatten_pages_map, hranks, flatten_pages_const]
  apply take_of_length_le
  rw [length_map, (hruns 0).perm.length_eq]
  exact hcount

/-! ## Rows -/

/-- A page has the rows at its places. -/
theorem mem_page {run : List ρ} {offset size : ℕ} {r : ρ} :
    r ∈ page run offset size ↔ ∃ p, offset ≤ p ∧ p < offset + size ∧ run[p]? = some r := by
  unfold page
  rw [mem_iff_getElem?]
  constructor
  · rintro ⟨i, hi⟩
    rw [getElem?_take] at hi
    split at hi
    · rename_i hlt
      rw [getElem?_drop] at hi
      exact ⟨offset + i, Nat.le_add_right _ _, Nat.add_lt_add_left hlt _, hi⟩
    · exact absurd hi (by simp)
  · rintro ⟨p, hlow, hhigh, hp⟩
    refine ⟨p - offset, ?_⟩
    rw [getElem?_take, if_pos (by omega), getElem?_drop, Nat.add_sub_cancel' hlow]
    exact hp

/-- The rows of a rank that no page ends among are in one page. -/
theorem same_page {ranks : List κ} (hsorted : ranks.Pairwise (· ≤ ·)) {r : κ} (hsize : 0 < size)
    (hone : ¬Straddles ranks size r) {p q : ℕ} (hp : ranks[p]? = some r) (hq : ranks[q]? = some r)
    (hle : p ≤ q) : p / size = q / size := by
  by_contra hne
  have hlt : p / size < q / size := lt_of_le_of_ne (Nat.div_le_div_right hle) hne
  have hlow : p < (p / size + 1) * size := by
    have hdiv := Nat.lt_div_mul_add (a := p) hsize
    rw [Nat.succ_mul]
    exact hdiv
  have hhigh : (p / size + 1) * size ≤ q :=
    (Nat.mul_le_mul_right _ hlt).trans (Nat.div_mul_le_self q size)
  obtain ⟨hplt, hpr⟩ := List.getElem?_eq_some_iff.mp hp
  obtain ⟨hqlt, hqr⟩ := List.getElem?_eq_some_iff.mp hq
  have hbetween (m : ℕ) (hpm : p ≤ m) (hmq : m ≤ q) : ranks[m]? = some r := by
    have hm : m < ranks.length := by omega
    rw [List.getElem?_eq_getElem hm]
    have hmono := List.pairwise_iff_getElem.mp hsorted
    have hge : r ≤ ranks[m] := by
      rcases hpm.eq_or_lt with rfl | hpm
      · exact hpr.ge
      · exact hpr ▸ hmono p m hplt hm hpm
    have hle' : ranks[m] ≤ r := by
      rcases hmq.eq_or_lt with rfl | hmq
      · exact hqr.le
      · exact hqr ▸ hmono m q hm hqlt hmq
    rw [le_antisymm hle' hge]
  exact hone ⟨p / size + 1, Nat.succ_pos _, hbetween _ (by omega) (by omega), hbetween _ (by omega) hhigh⟩

theorem sum_range_single {f : ℕ → ℕ} {k count : ℕ} (hk : k < count) (hf : ∀ j, j ≠ k → f j = 0) :
    ((List.range count).map f).sum = f k := by
  show (Finset.range count).sum f = f k
  exact Finset.sum_eq_single k (fun j _ hj => hf j hj) fun hout => absurd (Finset.mem_range.mpr hk) hout

/-- A row is in the pages once if no page ends among the rows of its rank. -/
theorem count_pages [DecidableEq ρ] (hruns : ∀ k, SortedRun rank rows (runs k)) (hnodup : rows.Nodup)
    (hsize : 0 < size) (hcount : rows.length ≤ count * size) {r : ρ} (hr : r ∈ rows)
    (hone : ¬Straddles ((runs 0).map rank) size (rank r)) : (pages runs size count).flatten.count r = 1 := by
  have hsorted : ((runs 0).map rank).Pairwise (· ≤ ·) := List.pairwise_map.mpr (hruns 0).sorted
  have hranks {k p : ℕ} (hp : (runs k)[p]? = some r) : ((runs 0).map rank)[p]? = some (rank r) := by
    rw [(hruns 0).ranks_eq (hruns k), List.getElem?_map, hp]
    rfl
  have hplace (k : ℕ) : ∃ p, p < rows.length ∧ (runs k)[p]? = some r := by
    obtain ⟨p, hp⟩ := List.mem_iff_getElem?.mp ((hruns k).perm.mem_iff.mpr hr)
    exact ⟨p, (hruns k).perm.length_eq ▸ (List.getElem?_eq_some_iff.mp hp).1, hp⟩
  obtain ⟨p, hlt, hp⟩ := hplace 0
  have hsame {k q : ℕ} (hq : (runs k)[q]? = some r) : q / size = p / size := by
    rcases Nat.le_total p q with hle | hle
    · exact (same_page hsorted hsize hone (hranks hp) (hranks hq) hle).symm
    · exact same_page hsorted hsize hone (hranks hq) (hranks hp) hle
  have hpage (k : ℕ) : (page (runs k) (k * size) size).count r = if k = p / size then 1 else 0 := by
    have hsub : (page (runs k) (k * size) size).Nodup :=
      ((hruns k).perm.nodup_iff.mpr hnodup).sublist ((List.take_sublist _ _).trans (List.drop_sublist _ _))
    split
    · rename_i hk
      obtain ⟨q, _, hq⟩ := hplace k
      refine List.count_eq_one_of_mem hsub (mem_page.mpr ⟨q, ?_, ?_, hq⟩)
      · rw [hk, ← hsame hq]
        exact Nat.div_mul_le_self q size
      · rw [hk, ← hsame hq]
        exact Nat.lt_div_mul_add hsize
    · rename_i hk
      refine List.count_eq_zero_of_not_mem fun hmem => hk ?_
      obtain ⟨q, hlow, hhigh, hq⟩ := mem_page.mp hmem
      rw [← hsame hq]
      exact (Nat.div_eq_of_lt_le hlow (by rw [Nat.succ_mul]; exact hhigh)).symm
  unfold pages
  rw [List.count_flatten, List.map_map, sum_range_single (k := p / size)]
  · rw [Function.comp_apply, hpage, if_pos rfl]
  · exact Nat.div_lt_of_lt_mul (by rw [Nat.mul_comm]; omega)
  · intro j hj
    rw [Function.comp_apply, hpage, if_neg hj]

/-! ## Ties at the end of a page -/

/-- An execution with two rows of one rank exchanged. -/
theorem SortedRun.exchange {run : List ρ} (h : SortedRun rank rows run) {i j : ℕ} {a b : ρ}
    (ha : run[i]? = some a) (hb : run[j]? = some b) (heq : rank a = rank b) :
    SortedRun rank rows ((run.set i b).set j a) := by
  obtain ⟨hi, rfl⟩ := List.getElem?_eq_some_iff.mp ha
  obtain ⟨hj, rfl⟩ := List.getElem?_eq_some_iff.mp hb
  constructor
  · exact (List.set_set_perm hi hj).trans h.perm
  · have hranks : ((run.set i run[j]).set j run[i]).map rank = run.map rank := by
      have hset {k : ℕ} (hk : k < run.length) : (run.map rank).set k (rank run[k]) = run.map rank := by
        have hmap : k < (run.map rank).length := by rwa [List.length_map]
        have hself : (run.map rank).set k (run.map rank)[k] = run.map rank := List.set_getElem_self _
        rwa [List.getElem_map] at hself
      rw [List.map_set, List.map_set, ← heq, hset hi, heq, hset hj]
    rw [← List.pairwise_map, hranks, List.pairwise_map]
    exact h.sorted

theorem lt_of_pairwise_range {q : ℕ → ℕ → Prop} (h : (List.range count).Pairwise q) {i j : ℕ} (hij : i < j)
    (hj : j < count) : q i j := by
  have hlt : i < (List.range count).length := by rw [length_range]; omega
  have hlt' : j < (List.range count).length := by rwa [length_range]
  have hpair := pairwise_iff_getElem.mp h i j hlt hlt' hij
  rwa [getElem_range, getElem_range] at hpair

/-- Where a page ends among rows of one rank, a row can be in two pages. -/
theorem exists_repeated {run : List ρ} (hrun : SortedRun rank rows run) (hsize : 0 < size)
    (hcount : rows.length ≤ count * size) {r : κ} (htie : Straddles (run.map rank) size r) :
    ∃ runs : ℕ → List ρ, (∀ k, SortedRun rank rows (runs k)) ∧ ¬(pages runs size count).flatten.Nodup := by
  obtain ⟨k, hk, ha, hb⟩ := htie
  obtain ⟨a, ha, hra⟩ := Option.map_eq_some_iff.mp (List.getElem?_map ▸ ha)
  obtain ⟨b, hb, hrb⟩ := Option.map_eq_some_iff.mp (List.getElem?_map ▸ hb)
  have hexchanged := hrun.exchange ha hb (hra.trans hrb.symm)
  have hlt : k * size < run.length := (List.getElem?_eq_some_iff.mp hb).1
  refine ⟨fun m => if m = k then (run.set (k * size - 1) b).set (k * size) a else run, fun m => ?_, ?_⟩
  · dsimp only
    split
    · exact hexchanged
    · exact hrun
  · -- the row at the end of a page comes again at the beginning of the next
    have hpred : k - 1 + 1 = k := Nat.sub_add_cancel hk
    have hkcount : k < count := by
      by_contra hge
      have hle := Nat.mul_le_mul_right size (not_lt.mp hge)
      rw [hrun.perm.length_eq] at hlt
      omega
    have hbefore : a ∈ page run ((k - 1) * size) size := by
      have hmul : k * size = (k - 1) * size + size := by
        rw [← Nat.succ_mul, Nat.succ_eq_add_one, hpred]
      exact mem_page.mpr ⟨k * size - 1, by omega, by omega, ha⟩
    have hafter : a ∈ page ((run.set (k * size - 1) b).set (k * size) a) (k * size) size := by
      refine mem_page.mpr ⟨k * size, le_refl _, by omega, ?_⟩
      rw [List.getElem?_set_self (by rw [List.length_set]; exact hlt)]
    intro hnodup
    have hdisjoint := List.pairwise_map.mp (List.nodup_flatten.mp hnodup).2
    have hpair := lt_of_pairwise_range hdisjoint (i := k - 1) (by omega) hkcount
    dsimp only at hpair
    rw [if_neg (by omega), if_pos rfl] at hpair
    exact hpair hbefore hafter

end Imbh.Lib
