import Mathlib.Data.List.Sort
import Mathlib.Tactic.Linarith

/-!
# Rankings

The elements of a list by a key, the greatest first, where elements with one key may stand in any
order. From the first `k` of a ranking the elements that satisfy `q` are kept, up to `n` of them:
-/

namespace Imbh.Lib

open List

variable {α : Type}

/-- The elements of the list, the greatest key first. -/
structure IsRanking (key : α → ℤ) (l ranked : List α) : Prop where
  perm : ranked.Perm l
  ordered : ranked.Pairwise fun a b => key b ≤ key a

/-- The first elements of a ranking. -/
def IsTop (key : α → ℤ) (n : ℕ) (l out : List α) : Prop :=
  ∃ ranked, IsRanking key l ranked ∧ out = ranked.take n

/-- For each of the first `n` elements that satisfy `q`, those that do not and those that do, up to
`n`, whose keys are not less, are together at most `k`. -/
def Room (key : α → ℤ) (q : α → Bool) (n k : ℕ) (l : List α) : Prop :=
  ∀ t ∈ l, q t = true → (l.countP fun u => q u && decide (key t < key u)) < n →
    (l.countP fun u => !q u && decide (key t ≤ key u)) +
      min n (l.countP fun u => q u && decide (key t ≤ key u)) ≤ k

variable {key : α → ℤ} {q : α → Bool} {n k : ℕ} {l ranked : List α}

theorem IsRanking.filter (h : IsRanking key l ranked) (q : α → Bool) :
    IsRanking key (l.filter q) (ranked.filter q) where
  perm := h.perm.filter q
  ordered := h.ordered.filter q

theorem IsRanking.of_perm {l' : List α} (h : IsRanking key l ranked) (hl : l.Perm l') :
    IsRanking key l' ranked where
  perm := h.perm.trans hl
  ordered := h.ordered

theorem IsRanking.congr {key' : α → ℤ} (hkey : ∀ a ∈ l, key a = key' a) (h : IsRanking key l ranked) :
    IsRanking key' l ranked where
  perm := h.perm
  ordered := by
    apply h.ordered.imp_of_mem
    intro a b ha hb hab
    rw [← hkey a (h.perm.mem_iff.mp ha), ← hkey b (h.perm.mem_iff.mp hb)]
    exact hab

theorem isRanking_iff {key' : α → ℤ} {l' : List α} (hl : l.Perm l') (hkey : ∀ a ∈ l, key a = key' a) :
    IsRanking key l ranked ↔ IsRanking key' l' ranked := by
  constructor
  · intro h
    exact (h.congr hkey).of_perm hl
  · intro h
    apply (h.of_perm hl.symm).congr
    intro a ha
    exact (hkey a ha).symm

/-- A ranking of some of the elements is part of a ranking of all. -/
theorem IsRanking.exists_extension {p : α → Bool} (h : IsRanking key (l.filter p) ranked) :
    ∃ full, IsRanking key l full ∧ full.filter p = ranked := by
  let above : α → α → Prop := fun a b => key b ≤ key a
  have htotal : Std.Total above := ⟨fun a b => le_total (key b) (key a)⟩
  have htrans : IsTrans α above := ⟨fun _ _ _ hab hbc => le_trans hbc hab⟩
  let all := ranked ++ l.filter fun a => !p a
  have hsorted : (all.insertionSort above).Perm all := perm_insertionSort above all
  have hall : all.Perm l := (h.perm.append_right _).trans (filter_append_perm p l)
  have hkept : ranked.filter p = ranked :=
    filter_eq_self.mpr fun a ha => (mem_filter.mp (h.perm.mem_iff.mp ha)).2
  have hnone : (l.filter fun a => !p a).filter p = [] :=
    filter_eq_nil_iff.mpr fun a ha => by simpa using (mem_filter.mp ha).2
  refine ⟨all.insertionSort above, ⟨hsorted.trans hall, pairwise_insertionSort above all⟩, ?_⟩
  -- a stable sort leaves the ranking as it is
  have hsub : ranked.Sublist (all.insertionSort above) :=
    sublist_insertionSort h.ordered (sublist_append_left _ _)
  have hlength : (ranked.filter p).length = ((all.insertionSort above).filter p).length := by
    rw [(hsorted.filter p).length_eq, filter_append, hnone, append_nil]
  rw [← (hsub.filter p).eq_of_length hlength, hkept]

/-- Where the elements behind the first `k` do not satisfy `q`, a filter and the cut may be exchanged. -/
theorem filter_take_filter (keep : α → Bool) (h : (ranked.drop k).filter q = []) :
    ((ranked.filter keep).take k).filter q = ((ranked.take k).filter q).filter keep := by
  have hrest : ∀ j, (((ranked.drop k).filter keep).take j).filter q = [] := by
    intro j
    apply filter_eq_nil_iff.mpr
    intro a ha
    exact filter_eq_nil_iff.mp h a (mem_of_mem_filter (mem_of_mem_take ha))
  have hsplit : ranked.filter keep = (ranked.take k).filter keep ++ (ranked.drop k).filter keep := by
    rw [← filter_append, take_append_drop]
  have hfew : ((ranked.take k).filter keep).length ≤ k :=
    (length_filter_le _ _).trans (length_take_le k ranked)
  rw [hsplit, take_append, take_of_length_le hfew, filter_append, hrest, append_nil,
    filter_comm]

/-- Where there is room, the first `k` of a ranking have the first `n` that satisfy `q`. -/
theorem take_filter_of_room (hroom : Room key q n k l) (hr : IsRanking key l ranked) :
    ((ranked.take k).filter q).take n = (ranked.filter q).take n := by
  have hsplit : ranked.filter q = (ranked.take k).filter q ++ (ranked.drop k).filter q := by
    rw [← filter_append, take_append_drop]
  rcases Nat.lt_or_ge ((ranked.take k).filter q).length n with hlt | hge
  · rcases hrest : (ranked.drop k).filter q with _ | ⟨t, rest⟩
    · rw [hsplit, hrest, append_nil]
    · exfalso
      have ht : t ∈ (ranked.drop k).filter q := hrest ▸ mem_cons_self
      obtain ⟨htdrop, hqt⟩ := mem_filter.mp ht
      have htl : t ∈ l := hr.perm.mem_iff.mp (mem_of_mem_drop htdrop)
      have hordered : (ranked.take k ++ ranked.drop k).Pairwise fun a b => key b ≤ key a := by
        rw [take_append_drop]
        exact hr.ordered
      obtain ⟨_, hdrop, hacross⟩ := pairwise_append.mp hordered
      have hrestle : ∀ u ∈ rest, key u ≤ key t :=
        (pairwise_cons.mp (hrest ▸ hdrop.filter q)).1
      have hbefore : ∀ u ∈ ranked.take k, key t ≤ key u := fun u hu => hacross u hu t htdrop
      have hcount : ∀ p : α → Bool, l.countP (fun u => q u && p u) =
          ((ranked.take k).filter q).countP p + (t :: rest).countP p := by
        intro p
        rw [← hrest, ← countP_append, ← hsplit, countP_filter, ← hr.perm.countP_eq]
        apply countP_congr
        intro u _
        rw [Bool.and_comm]
      have hmore : (l.countP fun u => q u && decide (key t < key u)) < n := by
        rw [hcount]
        have hnone : (t :: rest).countP (fun u => decide (key t < key u)) = 0 := by
          apply countP_eq_zero.mpr
          intro u hu
          rcases mem_cons.mp hu with rfl | hu
          · simp
          · simpa using hrestle u hu
        have hle := countP_le_length (p := fun u => decide (key t < key u))
          (l := (ranked.take k).filter q)
        omega
      have hfits := hroom t htl hqt hmore
      -- the first `k` are all at least as great as `t`, which is not among them
      have hlen : (ranked.take k).length = k := by
        rw [length_take]
        have hpos := length_pos_of_mem htdrop
        rw [length_drop] at hpos
        omega
      have hothers : (ranked.take k).countP (fun u => !q u) ≤
          l.countP fun u => !q u && decide (key t ≤ key u) := by
        rw [← hr.perm.countP_eq]
        calc (ranked.take k).countP (fun u => !q u)
            = (ranked.take k).countP fun u => !q u && decide (key t ≤ key u) := by
              apply countP_congr
              intro u hu
              simp [hbefore u hu]
          _ ≤ ranked.countP fun u => !q u && decide (key t ≤ key u) :=
              (take_sublist k ranked).countP_le
      have hsame : ((ranked.take k).filter q).length + 1 ≤
          l.countP fun u => q u && decide (key t ≤ key u) := by
        rw [hcount, countP_cons_of_pos (by simp)]
        have hall : ((ranked.take k).filter q).countP (fun u => decide (key t ≤ key u)) =
            ((ranked.take k).filter q).length := by
          apply countP_eq_length.mpr
          intro u hu
          simpa using hbefore u (mem_of_mem_filter hu)
        omega
      have hparts := length_eq_countP_add_countP (p := q) (l := ranked.take k)
      have hnot : (ranked.take k).countP (fun u => !q u) =
          (ranked.take k).countP fun u => decide (¬q u = true) := by
        apply countP_congr
        intro u _
        simp
      rw [← countP_eq_length_filter] at hlt hsame
      omega
  · rw [hsplit, take_append_of_le_length hge]

/-- A ranking in which, of elements with one key, those that do not satisfy `q` come first. -/
theorem exists_ranking_last (key : α → ℤ) (q : α → Bool) (l : List α) :
    ∃ ranked, IsRanking key l ranked ∧
      ranked.Pairwise fun a b => q a = true → q b = false → key b < key a := by
  let before : α → α → Prop := fun a b => key b < key a ∨ key b = key a ∧ (q a = true → q b = true)
  have hdec : DecidableRel before := fun a b => inferInstanceAs (Decidable (_ ∨ _))
  have htotal : Std.Total before := by
    constructor
    intro a b
    rcases lt_trichotomy (key a) (key b) with h | h | h
    · exact .inr (.inl h)
    · by_cases hq : q a = true → q b = true
      · exact .inl (.inr ⟨h.symm, hq⟩)
      · refine .inr (.inr ⟨h, fun _ => ?_⟩)
        by_contra ha
        exact hq fun ha' => absurd ha' ha
    · exact .inl (.inl h)
  have htrans : IsTrans α before := by
    constructor
    rintro a b c (hab | ⟨hab, hqab⟩) (hbc | ⟨hbc, hqbc⟩)
    · exact .inl (hbc.trans hab)
    · exact .inl (hbc ▸ hab)
    · exact .inl (hab ▸ hbc)
    · exact .inr ⟨hbc.trans hab, fun ha => hqbc (hqab ha)⟩
  have hsorted := pairwise_insertionSort before l
  refine ⟨l.insertionSort before, ⟨perm_insertionSort before l, ?_⟩, ?_⟩
  · apply hsorted.imp
    rintro a b (h | ⟨h, _⟩)
    · exact h.le
    · exact h.le
  · apply hsorted.imp
    rintro a b (h | ⟨_, h⟩) ha hb
    · exact h
    · exact absurd (h ha) (Bool.eq_false_iff.mp hb)

end Imbh.Lib
