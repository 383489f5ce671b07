import Mathlib.Data.List.Induction
import Mathlib.Data.List.Perm.Basic

/-!
# Grouping in the order of arrival

The items of a list are put one after another into the first group of their key. From `cap` groups on,
each item opens a group of its own.

The keys are compared by a relation that is an equivalence; nothing else is asked of it.
-/

namespace Imbh.Lib

open List

section

variable {α κ : Type*} (key : α → κ) (same : κ → κ → Bool) (cap : ℕ)

/-- The item is put into the first group of its key, or into a new one at the end. -/
def joinFirst (a : α) : List (κ × List α) → List (κ × List α)
  | [] => [(key a, [a])]
  | g :: gs => if same g.1 (key a) then (g.1, g.2 ++ [a]) :: gs else g :: joinFirst a gs

def addTo (groups : List (κ × List α)) (a : α) : List (κ × List α) :=
  if groups.length < cap then joinFirst key same a groups else groups ++ [(key a, [a])]

def group (items : List α) : List (κ × List α) := items.foldl (addTo key same cap) []

/-- The groups without a bound on their number. -/
def groupAll (items : List α) : List (κ × List α) := items.foldl (fun gs a => joinFirst key same a gs) []

end

section

variable {α κ : Type*} {key : α → κ} {same : κ → κ → Bool} {cap : ℕ} {groups : List (κ × List α)}

theorem joinFirst_cons (a : α) (g : κ × List α) (gs : List (κ × List α)) :
    joinFirst key same a (g :: gs) =
      if same g.1 (key a) then (g.1, g.2 ++ [a]) :: gs else g :: joinFirst key same a gs := rfl

/-- What the groups are after the items: the keys differ while there is room for one more. -/
structure Grouped (key : α → κ) (same : κ → κ → Bool) (cap : ℕ) (groups : List (κ × List α))
    (items : List α) : Prop where
  keys : ∀ g ∈ groups, ∀ a ∈ g.2, same g.1 (key a) = true
  distinct : groups.length ≤ cap → groups.Pairwise fun g h => same g.1 h.1 = false
  perm : (groups.flatMap Prod.snd).Perm items
  filter : ∀ k, (groups.flatMap Prod.snd).filter (fun a => same k (key a)) =
    items.filter fun a => same k (key a)

/-- The items of a group have its key. -/
theorem joinFirst_keys (hequiv : Equivalence fun a b => same a b = true) {a : α}
    (h : ∀ g ∈ groups, ∀ b ∈ g.2, same g.1 (key b) = true) :
    ∀ g ∈ joinFirst key same a groups, ∀ b ∈ g.2, same g.1 (key b) = true := by
  induction groups with
  | nil =>
    intro g hg b hb
    rw [mem_singleton.mp hg] at hb ⊢
    rw [mem_singleton.mp hb]
    exact hequiv.refl (key a)
  | cons g gs ih =>
    have htail : ∀ g ∈ gs, ∀ b ∈ g.2, same g.1 (key b) = true :=
      fun g hg => h g (mem_cons_of_mem _ hg)
    intro g' hg' b hb
    rw [joinFirst_cons] at hg'
    split at hg'
    · rename_i hsame
      rcases mem_cons.mp hg' with rfl | hg'
      · rcases mem_append.mp hb with hb | hb
        · exact h g mem_cons_self b hb
        · rw [mem_singleton.mp hb]
          exact hsame
      · exact htail g' hg' b hb
    · rcases mem_cons.mp hg' with rfl | hg'
      · exact h g' mem_cons_self b hb
      · exact ih htail g' hg' b hb

/-- A group of the result is of a key that was there, or of the item. -/
theorem joinFirst_fst {a : α} {g : κ × List α} (hg : g ∈ joinFirst key same a groups) :
    (∃ g' ∈ groups, g.1 = g'.1) ∨ g.1 = key a := by
  induction groups with
  | nil =>
    rw [mem_singleton.mp hg]
    exact .inr rfl
  | cons g' gs ih =>
    rw [joinFirst_cons] at hg
    split at hg
    · rcases mem_cons.mp hg with rfl | hg
      · exact .inl ⟨g', mem_cons_self, rfl⟩
      · exact .inl ⟨g, mem_cons_of_mem _ hg, rfl⟩
    · rcases mem_cons.mp hg with rfl | hg
      · exact .inl ⟨g, mem_cons_self, rfl⟩
      · apply (ih hg).imp_left
        rintro ⟨g'', hg'', heq⟩
        exact ⟨g'', mem_cons_of_mem _ hg'', heq⟩

/-- Groups stay distinct. -/
theorem joinFirst_distinct {a : α} (h : groups.Pairwise fun g h => same g.1 h.1 = false) :
    (joinFirst key same a groups).Pairwise fun g h => same g.1 h.1 = false := by
  induction groups with
  | nil => exact pairwise_singleton _ _
  | cons g gs ih =>
    obtain ⟨hhead, htail⟩ := pairwise_cons.mp h
    rw [joinFirst_cons]
    split
    · exact pairwise_cons.mpr ⟨hhead, htail⟩
    · rename_i hne
      refine pairwise_cons.mpr ⟨?_, ih htail⟩
      intro g' hg'
      rcases joinFirst_fst hg' with ⟨g'', hg'', heq⟩ | heq
      · rw [heq]
        exact hhead g'' hg''
      · rw [heq]
        exact eq_false_of_ne_true hne

/-- Joining adds the item and loses none. -/
theorem joinFirst_perm {a : α} :
    ((joinFirst key same a groups).flatMap Prod.snd).Perm (groups.flatMap Prod.snd ++ [a]) := by
  induction groups with
  | nil => exact Perm.refl _
  | cons g gs ih =>
    rw [joinFirst_cons]
    split
    · rw [flatMap_cons, flatMap_cons, append_assoc, append_assoc]
      exact perm_append_comm.append_left _
    · rw [flatMap_cons, flatMap_cons, append_assoc]
      exact ih.append_left _

/-- Of a key that differs from that of the item nothing changes; of its own key the item is the last,
as no group after the one it joins is of that key. -/
theorem joinFirst_filter (hequiv : Equivalence fun a b => same a b = true) {a : α}
    (hkeys : ∀ g ∈ groups, ∀ b ∈ g.2, same g.1 (key b) = true)
    (hdistinct : groups.Pairwise fun g h => same g.1 h.1 = false) (k : κ) :
    ((joinFirst key same a groups).flatMap Prod.snd).filter (fun b => same k (key b)) =
      (groups.flatMap Prod.snd).filter (fun b => same k (key b)) ++
        [a].filter fun b => same k (key b) := by
  induction groups with
  | nil => rfl
  | cons g gs ih =>
    obtain ⟨hhead, htail⟩ := pairwise_cons.mp hdistinct
    rw [joinFirst_cons]
    split
    · rename_i hsame
      simp only [flatMap_cons, filter_append, append_assoc]
      congr 1
      by_cases hk : same k (key a) = true
      · have hrest : (gs.flatMap Prod.snd).filter (fun b => same k (key b)) = [] := by
          apply filter_eq_nil_iff.mpr
          intro b hb hkb
          obtain ⟨g', hg', hb'⟩ := mem_flatMap.mp hb
          have hga : same (key a) g'.1 = true :=
            hequiv.trans (hequiv.symm hk) (hequiv.trans hkb
              (hequiv.symm (hkeys g' (mem_cons_of_mem _ hg') b hb')))
          have hgg : same g.1 g'.1 = true := hequiv.trans hsame hga
          rw [hhead g' hg'] at hgg
          exact Bool.false_ne_true hgg
        rw [hrest, append_nil, nil_append]
      · have hnone : [a].filter (fun b => same k (key b)) = [] := by
          rw [filter_singleton, eq_false_of_ne_true hk]
          rfl
        rw [hnone, append_nil, nil_append]
    · simp only [flatMap_cons, filter_append, append_assoc]
      rw [ih (fun g' hg' => hkeys g' (mem_cons_of_mem _ hg')) htail]

/-- Adding an item keeps the groups those of all items. -/
theorem addTo_grouped (hequiv : Equivalence fun a b => same a b = true) {a : α} {items : List α}
    (h : Grouped key same cap groups items) : Grouped key same cap (addTo key same cap groups a) (items ++ [a]) := by
  unfold addTo
  split
  · rename_i hroom
    have hdistinct := h.distinct (Nat.le_of_lt hroom)
    refine ⟨joinFirst_keys hequiv h.keys, fun _ => joinFirst_distinct hdistinct, ?_, ?_⟩
    · exact joinFirst_perm.trans (h.perm.append_right _)
    · intro k
      rw [joinFirst_filter hequiv h.keys hdistinct, h.filter k, filter_append]
  · rename_i hroom
    refine ⟨?_, ?_, ?_, ?_⟩
    · intro g hg b hb
      rcases mem_append.mp hg with hg | hg
      · exact h.keys g hg b hb
      · rw [mem_singleton.mp hg] at hb ⊢
        rw [mem_singleton.mp hb]
        exact hequiv.refl (key a)
    · intro hlength
      rw [length_append, length_singleton] at hlength
      exact absurd (Nat.lt_of_succ_le hlength) hroom
    · rw [flatMap_append]
      exact h.perm.append_right _
    · intro k
      rw [flatMap_append, filter_append, h.filter k, filter_append]
      rfl

/-- The groups are those of the items. -/
theorem group_grouped (hequiv : Equivalence fun a b => same a b = true) (items : List α) :
    Grouped key same cap (group key same cap items) items := by
  have hfold : ∀ (rest : List α) {groups : List (κ × List α)} {done : List α},
      Grouped key same cap groups done →
      Grouped key same cap (rest.foldl (addTo key same cap) groups) (done ++ rest) := by
    intro rest
    induction rest with
    | nil =>
      intro groups done h
      rw [append_nil]
      exact h
    | cons a rest ih =>
      intro groups done h
      have hnext : Grouped key same cap (addTo key same cap groups a) (done ++ [a]) :=
        addTo_grouped hequiv h
      rw [foldl_cons, append_cons]
      exact ih hnext
  have hnil : Grouped key same cap [] ([] : List α) := by
    refine ⟨?_, fun _ => .nil, .nil, fun _ => rfl⟩
    intro g hg
    exact absurd hg not_mem_nil
  exact hfold items hnil

/-- The groups without a bound: each key once, with its items in the order in which they came. -/
theorem groupAll_spec (hequiv : Equivalence fun a b => same a b = true) (items : List α) :
    (∀ g ∈ groupAll key same items, ∀ a ∈ g.2, same g.1 (key a) = true) ∧
      ((groupAll key same items).Pairwise fun g h => same g.1 h.1 = false) ∧
      ((groupAll key same items).flatMap Prod.snd).Perm items ∧
      ∀ k, ((groupAll key same items).flatMap Prod.snd).filter (fun a => same k (key a)) =
        items.filter fun a => same k (key a) := by
  induction items using List.reverseRecOn with
  | nil =>
    refine ⟨?_, .nil, .nil, fun _ => rfl⟩
    intro g hg
    exact absurd hg not_mem_nil
  | append_singleton items a ih =>
    obtain ⟨hkeys, hdistinct, hperm, hfilter⟩ := ih
    unfold groupAll at hkeys hdistinct hperm hfilter ⊢
    rw [foldl_append, foldl_cons, foldl_nil]
    refine ⟨joinFirst_keys hequiv hkeys, joinFirst_distinct hdistinct, ?_, fun k => ?_⟩
    · exact joinFirst_perm.trans (hperm.append_right _)
    · rw [joinFirst_filter hequiv hkeys hdistinct, hfilter k, filter_append]

/-- Among groups of different keys the items of a key are those of its group. -/
theorem filter_flatMap_group (hequiv : Equivalence fun a b => same a b = true)
    (hkeys : ∀ g ∈ groups, ∀ a ∈ g.2, same g.1 (key a) = true)
    (hdistinct : groups.Pairwise fun g h => same g.1 h.1 = false) {g : κ × List α} (hg : g ∈ groups) :
    (groups.flatMap Prod.snd).filter (fun a => same g.1 (key a)) = g.2 := by
  have hother {h : κ × List α} (hh : h ∈ groups) (hne : same g.1 h.1 = false) :
      h.2.filter (fun a => same g.1 (key a)) = [] := by
    apply filter_eq_nil_iff.mpr
    intro a ha hsame
    have htrans := hequiv.trans hsame (hequiv.symm (hkeys h hh a ha))
    rw [hne] at htrans
    exact Bool.false_ne_true htrans
  induction groups with
  | nil => exact absurd hg not_mem_nil
  | cons h gs ih =>
    obtain ⟨hhead, htail⟩ := pairwise_cons.mp hdistinct
    rw [flatMap_cons, filter_append]
    rcases mem_cons.mp hg with rfl | hg
    · have hrest : (gs.flatMap Prod.snd).filter (fun a => same g.1 (key a)) = [] := by
        rw [filter_flatMap]
        exact flatMap_eq_nil_iff.mpr fun h hh => hother (mem_cons_of_mem _ hh) (hhead h hh)
      rw [hrest, append_nil]
      exact filter_eq_self.mpr (hkeys g mem_cons_self)
    · have hne : same g.1 h.1 = false := by
        have hhg := hhead g hg
        by_contra hsame
        have hback := hequiv.symm (eq_true_of_ne_false hsame)
        rw [hhg] at hback
        exact Bool.false_ne_true hback
      rw [hother mem_cons_self hne, nil_append]
      exact ih (fun k hk => hkeys k (mem_cons_of_mem _ hk)) htail hg
        fun hk => hother (mem_cons_of_mem _ hk)

/-- The items of a key come out of the groups in the order in which they came. -/
theorem group_filter (hequiv : Equivalence fun a b => same a b = true) (items : List α) (k : κ) :
    ((group key same cap items).flatMap Prod.snd).filter (fun a => same k (key a)) =
      items.filter fun a => same k (key a) :=
  (group_grouped hequiv items).filter k

/-- The groups hold the items. -/
theorem group_perm (hequiv : Equivalence fun a b => same a b = true) (items : List α) :
    ((group key same cap items).flatMap Prod.snd).Perm items :=
  (group_grouped hequiv items).perm

/-- The items of a group have its key. -/
theorem group_key (hequiv : Equivalence fun a b => same a b = true) {items : List α} {g : κ × List α}
    (hg : g ∈ group key same cap items) {a : α} (ha : a ∈ g.2) : same g.1 (key a) = true :=
  (group_grouped hequiv items).keys g hg a ha

end

end Imbh.Lib
