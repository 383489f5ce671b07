import Mathlib.Data.Finset.Max
import Mathlib.Order.Interval.Finset.Defs

/-!
# The least elements of a finite set

`bottom k s` has the `k` least elements of `s`, or all of them.
-/

namespace Imbh.Lib

variable {α : Type*} [LinearOrder α] {k : ℕ} {s t : Finset α} {a b : α}

/-- The elements with fewer than `k` smaller ones. -/
def bottom (k : ℕ) (s : Finset α) : Finset α := s.filter fun a => (s.filter (· < a)).card < k

theorem mem_bottom : a ∈ bottom k s ↔ a ∈ s ∧ (s.filter (· < a)).card < k := Finset.mem_filter

theorem bottom_subset (k : ℕ) (s : Finset α) : bottom k s ⊆ s := Finset.filter_subset _ _

/-- What is smaller than one of the least elements is one of them. -/
theorem mem_bottom_of_le (ha : a ∈ bottom k s) (hb : b ∈ s) (hle : b ≤ a) : b ∈ bottom k s := by
  rw [mem_bottom] at ha ⊢
  refine ⟨hb, lt_of_le_of_lt (Finset.card_le_card ?_) ha.2⟩
  intro c hc
  rw [Finset.mem_filter] at hc ⊢
  exact ⟨hc.1, hc.2.trans_le hle⟩

theorem lt_of_notMem_bottom (ha : a ∈ bottom k s) (hb : b ∈ s) (hnot : b ∉ bottom k s) : a < b := by
  by_contra hle
  exact hnot (mem_bottom_of_le ha hb (not_lt.mp hle))

/-- In a smaller set an element has no more smaller ones. -/
theorem mem_bottom_of_subset (hsub : s ⊆ t) (has : a ∈ s) (ha : a ∈ bottom k t) : a ∈ bottom k s := by
  rw [mem_bottom] at ha ⊢
  exact ⟨has, lt_of_le_of_lt (Finset.card_le_card (Finset.filter_subset_filter _ hsub)) ha.2⟩

/-- A subset of the right size that is below the rest. -/
theorem eq_bottom (hsub : t ⊆ s) (hcard : t.card = min k s.card) (hbelow : ∀ a ∈ t, ∀ b ∈ s, b ∉ t → a < b) :
    t = bottom k s := by
  ext a
  rw [mem_bottom]
  constructor
  · intro ha
    refine ⟨hsub ha, ?_⟩
    have hsmaller : s.filter (· < a) ⊆ t.erase a := by
      intro b hb
      rw [Finset.mem_filter] at hb
      rw [Finset.mem_erase]
      refine ⟨hb.2.ne, ?_⟩
      by_contra hnot
      exact absurd (hbelow a ha b hb.1 hnot) (not_lt.mpr hb.2.le)
    have hle := Finset.card_le_card hsmaller
    have hpos := Finset.card_pos.mpr ⟨a, ha⟩
    rw [Finset.card_erase_of_mem ha] at hle
    omega
  · rintro ⟨has, hfew⟩
    by_contra hnot
    have hall : t ⊆ s.filter (· < a) := by
      intro b hb
      exact Finset.mem_filter.mpr ⟨hsub hb, hbelow b hb a has hnot⟩
    have hle := Finset.card_le_card hall
    have hmissing : t.card < s.card := Finset.card_lt_card ⟨hsub, fun h => hnot (h has)⟩
    omega

theorem bottom_eq_self (h : s.card ≤ k) : bottom k s = s := by
  symm
  apply eq_bottom subset_rfl
  · rw [min_eq_right h]
  · intro a _ b hb hnot
    exact absurd hb hnot

/-- The bottom of a set has as many elements as it can. -/
theorem card_bottom (k : ℕ) (s : Finset α) : (bottom k s).card = min k s.card := by
  induction s using Finset.induction_on_max with
  | empty => rw [bottom_eq_self (Nat.zero_le _), Finset.card_empty, Nat.min_zero]
  | insert m s hmax ih =>
    have hnew : m ∉ s := fun hm => lt_irrefl m (hmax m hm)
    have hsmaller (a : α) (ha : a ∈ s) : (insert m s).filter (· < a) = s.filter (· < a) := by
      rw [Finset.filter_insert, if_neg (not_lt.mpr (hmax a ha).le)]
    have hall : (insert m s).filter (· < m) = s := by
      rw [Finset.filter_insert, if_neg (lt_irrefl m), Finset.filter_eq_self]
      exact hmax
    have hrest : s.filter (fun a => ((insert m s).filter (· < a)).card < k) = bottom k s :=
      Finset.filter_congr fun a ha => by rw [hsmaller a ha]
    rw [Finset.card_insert_of_notMem hnew]
    by_cases hroom : s.card < k
    · have heq : bottom k (insert m s) = insert m (bottom k s) := by
        rw [bottom, Finset.filter_insert, hall, if_pos hroom, hrest]
      rw [heq, Finset.card_insert_of_notMem fun hm => hnew (bottom_subset k s hm), ih]
      omega
    · have heq : bottom k (insert m s) = bottom k s := by
        rw [bottom, Finset.filter_insert, hall, if_neg hroom, hrest]
      rw [heq, ih]
      omega

/-- Nothing changes by an element above all of a full bottom. -/
theorem bottom_insert_of_lt (hfull : k ≤ s.card) (hnew : a ∉ s) (habove : ∀ b ∈ bottom k s, b < a) :
    bottom k (insert a s) = bottom k s := by
  symm
  apply eq_bottom ((bottom_subset k s).trans (Finset.subset_insert a s))
  · rw [card_bottom, Finset.card_insert_of_notMem hnew]
    omega
  · intro b hb c hc hnot
    rcases Finset.mem_insert.mp hc with rfl | hc
    · exact habove b hb
    · exact lt_of_notMem_bottom hb hc hnot

/-- An element that is not among the least ones, nor below one of them. -/
theorem bottom_insert_of_beyond {x : α} (hfull : k ≤ s.card) (hnot : x ∉ bottom k s) (habove : ∀ b ∈ bottom k s, b < x) :
    bottom k (insert x s) = bottom k s ∧ k < (insert x s).card := by
  by_cases hx : x ∈ s
  · rw [Finset.insert_eq_of_mem hx]
    refine ⟨rfl, lt_of_le_of_ne hfull fun heq => hnot ?_⟩
    rw [bottom_eq_self heq.ge]
    exact hx
  · rw [bottom_insert_of_lt hfull hx habove, Finset.card_insert_of_notMem hx]
    exact ⟨rfl, Nat.lt_succ_of_le hfull⟩

/-- An element below the greatest of a full bottom takes its place. -/
theorem bottom_insert_of_gt {m : α} (hfull : k ≤ s.card) (hnew : a ∉ s) (hm : m ∈ bottom k s)
    (hmax : ∀ b ∈ bottom k s, b ≤ m) (hlt : a < m) :
    bottom k (insert a s) = insert a ((bottom k s).erase m) := by
  have hnot : a ∉ (bottom k s).erase m := fun ha => hnew (bottom_subset k s (Finset.mem_of_mem_erase ha))
  symm
  apply eq_bottom
  · exact Finset.insert_subset_insert a ((Finset.erase_subset m _).trans (bottom_subset k s))
  · have hpos := Finset.card_pos.mpr ⟨m, hm⟩
    rw [Finset.card_insert_of_notMem hnot, Finset.card_erase_of_mem hm, card_bottom,
      Finset.card_insert_of_notMem hnew]
    rw [card_bottom] at hpos
    omega
  · intro b hb c hc hout
    have hcs : c ∈ s := (Finset.mem_insert.mp hc).resolve_left fun h => hout (h ▸ Finset.mem_insert_self _ _)
    have hmc : m ≤ c := by
      by_cases hcb : c ∈ bottom k s
      · have : c = m := by
          by_contra hne
          exact hout (Finset.mem_insert_of_mem (Finset.mem_erase.mpr ⟨hne, hcb⟩))
        exact this.ge
      · exact (lt_of_notMem_bottom hm hcs hcb).le
    rcases Finset.mem_insert.mp hb with rfl | hb
    · exact hlt.trans_le hmc
    · obtain ⟨hne, hb⟩ := Finset.mem_erase.mp hb
      exact lt_of_lt_of_le (lt_of_le_of_ne (hmax b hb) hne) hmc

/-- Only the least elements count. -/
theorem bottom_of_between (hsub : bottom k s ⊆ t) (hts : t ⊆ s) : bottom k t = bottom k s := by
  symm
  apply eq_bottom hsub
  · have hle := Finset.card_le_card hsub
    have hle' := Finset.card_le_card hts
    rw [card_bottom] at hle ⊢
    omega
  · intro a ha b hb hnot
    exact lt_of_notMem_bottom ha (hts hb) hnot

/-- It is enough to know the least elements of the parts. -/
theorem bottom_union_subset (k : ℕ) (s t : Finset α) : bottom k (s ∪ t) ⊆ bottom k s ∪ bottom k t := by
  intro a ha
  rcases Finset.mem_union.mp (bottom_subset k _ ha) with has | hat
  · exact Finset.mem_union_left _ (mem_bottom_of_subset Finset.subset_union_left has ha)
  · exact Finset.mem_union_right _ (mem_bottom_of_subset Finset.subset_union_right hat ha)

/-- No element of the bottom of a larger set is above a full bottom. -/
theorem le_of_mem_bottom {m : α} (hfull : k ≤ s.card) (hmax : ∀ b ∈ bottom k s, b ≤ m) (hsub : s ⊆ t)
    (ha : a ∈ bottom k t) : a ≤ m := by
  by_contra hlt
  have hall : bottom k s ⊆ t.filter (· < a) := by
    intro b hb
    exact Finset.mem_filter.mpr ⟨hsub (bottom_subset k s hb), (hmax b hb).trans_lt (not_le.mp hlt)⟩
  have hle := Finset.card_le_card hall
  rw [card_bottom, min_eq_left hfull] at hle
  exact absurd (mem_bottom.mp ha).2 (not_lt.mpr hle)

end Imbh.Lib
