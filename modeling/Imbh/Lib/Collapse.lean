import Mathlib.Data.List.Sort

/-!
# One element for each time

A list is sorted by an order that refines the time, and of each run with one time the first element is
kept.
-/

namespace Imbh.Lib

open List

variable {α : Type}

/-- The elements after `kept`, up to those that are the same as the last one kept. -/
def dedupFrom (same : α → α → Bool) (kept : α) : List α → List α
  | [] => []
  | b :: l => if same b kept then dedupFrom same kept l else b :: dedupFrom same b l

/-- The first element of each run. Source: `Vec::dedup_by` -/
def dedupBy (same : α → α → Bool) : List α → List α
  | [] => []
  | a :: l => a :: dedupFrom same a l

/-- An order of the elements that refines the time. -/
structure CollapseOrder (time : α → ℤ) (le : α → α → Prop) : Prop where
  total : ∀ a b, le a b ∨ le b a
  trans : ∀ a b c, le a b → le b c → le a c
  antisymm : ∀ a b, le a b → le b a → a = b
  mono : ∀ a b, le a b → time a ≤ time b

/-- Sort, and keep the first of each time. -/
def collapse (time : α → ℤ) (le : α → α → Prop) [DecidableRel le] (l : List α) : List α :=
  dedupBy (fun later kept => time later = time kept) (l.insertionSort le)

variable {time : α → ℤ} {le : α → α → Prop} {l : List α}

/-- An order that is given by a comparison. -/
theorem CollapseOrder.of_cmp (cmp : α → α → Ordering) [Std.TransCmp cmp]
    (heq : ∀ a b, cmp a b = .eq → a = b) (hmono : ∀ a b, (cmp a b).isLE → time a ≤ time b) :
    CollapseOrder time fun a b => (cmp a b).isLE where
  total a b := by
    have hswap : cmp b a = (cmp a b).swap := Std.OrientedCmp.eq_swap
    rw [hswap]
    rcases cmp a b <;> simp
  trans a b c := Std.TransCmp.isLE_trans
  antisymm a b hab hba := heq a b (Std.OrientedCmp.isLE_antisymm hab hba)
  mono := hmono

/-- A comparison of what a function gives. -/
theorem transCmp_on {β : Type} (cmp : β → β → Ordering) [Std.TransCmp cmp] (f : α → β) :
    Std.TransCmp fun a b => cmp (f a) (f b) where
  eq_swap := Std.OrientedCmp.eq_swap
  isLE_trans := Std.TransCmp.isLE_trans

theorem CollapseOrder.refl (h : CollapseOrder time le) (a : α) : le a a := (h.total a a).elim id id

/-- Of a sorted list the least of each time are kept. -/
theorem mem_dedupFrom (h : CollapseOrder time le) {kept : α} (hsorted : (kept :: l).Pairwise le) {x : α} :
    x ∈ kept :: dedupFrom (fun later kept => time later = time kept) kept l ↔
      x ∈ kept :: l ∧ ∀ y ∈ kept :: l, time y = time x → le x y := by
  induction l generalizing kept with
  | nil =>
    constructor
    · intro hx
      refine ⟨hx, ?_⟩
      intro y hy _
      rw [mem_singleton.mp hx, mem_singleton.mp hy]
      exact h.refl kept
    · exact fun hx => hx.1
  | cons b l ih =>
    obtain ⟨hkept, hrest⟩ := pairwise_cons.mp hsorted
    have hkb : le kept b := hkept b mem_cons_self
    unfold dedupFrom
    by_cases hsame : time b = time kept
    · have hskip : (kept :: l).Pairwise le :=
        pairwise_cons.mpr
          ⟨fun y hy => hkept y (mem_cons_of_mem _ hy), (pairwise_cons.mp hrest).2⟩
      rw [if_pos (decide_eq_true hsame), ih hskip]
      constructor
      · rintro ⟨hx, hleast⟩
        refine ⟨?_, ?_⟩
        · rcases mem_cons.mp hx with rfl | hx
          · exact mem_cons_self
          · exact mem_cons_of_mem _ (mem_cons_of_mem _ hx)
        · intro y hy hyx
          rcases mem_cons.mp hy with rfl | hy
          · exact hleast y mem_cons_self hyx
          · rcases mem_cons.mp hy with rfl | hy
            · exact h.trans _ _ _ (hleast kept mem_cons_self (hsame ▸ hyx)) hkb
            · exact hleast y (mem_cons_of_mem _ hy) hyx
      · rintro ⟨hx, hleast⟩
        have hleast' : ∀ y ∈ kept :: l, time y = time x → le x y := by
          intro y hy
          apply hleast
          rcases mem_cons.mp hy with rfl | hy
          · exact mem_cons_self
          · exact mem_cons_of_mem _ (mem_cons_of_mem _ hy)
        refine ⟨?_, hleast'⟩
        rcases mem_cons.mp hx with rfl | hx
        · exact mem_cons_self
        · rcases mem_cons.mp hx with rfl | hx
          · have hback := hleast kept mem_cons_self hsame.symm
            rw [h.antisymm _ _ hback hkb]
            exact mem_cons_self
          · exact mem_cons_of_mem _ hx
    · have hlt : time kept < time b := lt_of_le_of_ne (h.mono _ _ hkb) fun heq => hsame heq.symm
      have hlater : ∀ y ∈ b :: l, time kept < time y := by
        intro y hy
        rcases mem_cons.mp hy with rfl | hy
        · exact hlt
        · exact lt_of_lt_of_le hlt (h.mono _ _ ((pairwise_cons.mp hrest).1 y hy))
      rw [if_neg (by simpa using hsame), mem_cons, ih hrest]
      constructor
      · rintro (rfl | ⟨hx, hleast⟩)
        · refine ⟨mem_cons_self, ?_⟩
          intro y hy _
          rcases mem_cons.mp hy with rfl | hy
          · exact h.refl _
          · exact hkept y hy
        · refine ⟨mem_cons_of_mem _ hx, ?_⟩
          intro y hy hyx
          rcases mem_cons.mp hy with rfl | hy
          · exact absurd hyx (hlater x hx).ne
          · exact hleast y hy hyx
      · rintro ⟨hx, hleast⟩
        rcases mem_cons.mp hx with rfl | hx
        · exact .inl rfl
        · exact .inr ⟨hx, fun y hy => hleast y (mem_cons_of_mem _ hy)⟩

/-- What is left of a sorted list increases in time. -/
theorem dedupFrom_pairwise (h : CollapseOrder time le) {kept : α} (hsorted : (kept :: l).Pairwise le) :
    (kept :: dedupFrom (fun later kept => time later = time kept) kept l).Pairwise fun a b =>
      time a < time b := by
  induction l generalizing kept with
  | nil => exact pairwise_singleton _ _
  | cons b l ih =>
    obtain ⟨hkept, hrest⟩ := pairwise_cons.mp hsorted
    unfold dedupFrom
    by_cases hsame : time b = time kept
    · rw [if_pos (decide_eq_true hsame)]
      exact ih (pairwise_cons.mpr
        ⟨fun y hy => hkept y (mem_cons_of_mem _ hy), (pairwise_cons.mp hrest).2⟩)
    · have hlt : time kept < time b :=
        lt_of_le_of_ne (h.mono _ _ (hkept b mem_cons_self)) fun heq => hsame heq.symm
      rw [if_neg (by simpa using hsame)]
      have htail := ih hrest
      refine pairwise_cons.mpr ⟨?_, htail⟩
      intro y hy
      rcases mem_cons.mp hy with rfl | hy
      · exact hlt
      · exact hlt.trans ((pairwise_cons.mp htail).1 y hy)

variable [DecidableRel le]

theorem pairwise_sorted (h : CollapseOrder time le) (l : List α) : (l.insertionSort le).Pairwise le := by
  have htotal : Std.Total le := ⟨h.total⟩
  have htrans : IsTrans α le := ⟨h.trans⟩
  exact pairwise_insertionSort le l

/-- What is kept is the least of each time. -/
theorem mem_collapse (h : CollapseOrder time le) {x : α} :
    x ∈ collapse time le l ↔ x ∈ l ∧ ∀ y ∈ l, time y = time x → le x y := by
  have hsorted := pairwise_sorted h l
  have hmem : ∀ y, y ∈ l.insertionSort le ↔ y ∈ l := fun y => mem_insertionSort le
  unfold collapse
  rcases hl : l.insertionSort le with _ | ⟨a, rest⟩
  · rw [hl] at hmem
    constructor
    · exact fun hx => absurd hx not_mem_nil
    · exact fun hx => absurd ((hmem x).mpr hx.1) not_mem_nil
  · rw [hl] at hsorted hmem
    rw [dedupBy, mem_dedupFrom h hsorted]
    simp only [hmem]

theorem collapse_pairwise (h : CollapseOrder time le) (l : List α) :
    (collapse time le l).Pairwise fun a b => time a < time b := by
  have hsorted := pairwise_sorted h l
  unfold collapse
  rcases hl : l.insertionSort le with _ | ⟨a, rest⟩
  · exact Pairwise.nil
  · rw [hl] at hsorted
    exact dedupFrom_pairwise h hsorted

/-- Lists with strictly increasing times are determined by their elements. -/
theorem eq_of_pairwise_lt {l' : List α} (hl : l.Pairwise fun a b => time a < time b)
    (hl' : l'.Pairwise fun a b => time a < time b) (hmem : ∀ x, x ∈ l ↔ x ∈ l') : l = l' := by
  have hnodup : ∀ {m : List α}, m.Pairwise (fun a b => time a < time b) → m.Nodup := by
    intro m hm
    apply hm.imp
    rintro a _ hab rfl
    exact absurd hab (lt_irrefl _)
  apply Perm.eq_of_pairwise _ hl hl'
    ((perm_ext_iff_of_nodup (hnodup hl) (hnodup hl')).mpr hmem)
  intro a b _ _ hab hba
  exact absurd (hab.trans hba) (lt_irrefl _)

/-- The result depends on the elements alone. -/
theorem collapse_congr (h : CollapseOrder time le) {l' : List α} (hmem : ∀ x, x ∈ l ↔ x ∈ l') :
    collapse time le l = collapse time le l' := by
  apply eq_of_pairwise_lt (collapse_pairwise h l) (collapse_pairwise h l')
  intro x
  rw [mem_collapse h, mem_collapse h, hmem]
  simp only [hmem]

/-- A list with strictly increasing times is left as it is. -/
theorem collapse_of_pairwise (h : CollapseOrder time le) (hl : l.Pairwise fun a b => time a < time b) :
    collapse time le l = l := by
  apply eq_of_pairwise_lt (collapse_pairwise h l) hl
  intro x
  rw [mem_collapse h]
  constructor
  · exact fun hx => hx.1
  · intro hx
    refine ⟨hx, ?_⟩
    intro y hy hyx
    have heq : y = x := by
      by_contra hne
      rcases mem_iff_append.mp hx with ⟨as, bs, rfl⟩
      obtain ⟨_, hcons, hacross⟩ := pairwise_append.mp hl
      rcases mem_append.mp hy with hy | hy
      · exact absurd (hacross y hy x mem_cons_self) (hyx ▸ lt_irrefl _)
      · rcases mem_cons.mp hy with rfl | hy
        · exact hne rfl
        · exact absurd ((pairwise_cons.mp hcons).1 y hy) (hyx ▸ lt_irrefl _)
    rw [heq]
    exact h.refl x

theorem collapse_collapse (h : CollapseOrder time le) (l : List α) :
    collapse time le (collapse time le l) = collapse time le l :=
  collapse_of_pairwise h (collapse_pairwise h l)

/-- Of each time there is one element that is kept. -/
theorem exists_mem_collapse (h : CollapseOrder time le) {x : α} (hx : x ∈ l) :
    ∃ y ∈ collapse time le l, time y = time x ∧ le y x := by
  have hsorted := pairwise_sorted h (l.filter fun z => time z = time x)
  have hmem : ∀ z, z ∈ (l.filter fun z => time z = time x).insertionSort le ↔
      z ∈ l ∧ time z = time x := by
    intro z
    rw [mem_insertionSort, mem_filter, decide_eq_true_eq]
  rcases hs : (l.filter fun z => time z = time x).insertionSort le with _ | ⟨y, ys⟩
  · rw [hs] at hmem
    exact absurd ((hmem x).mpr ⟨hx, rfl⟩) not_mem_nil
  · rw [hs] at hsorted hmem
    have hleast : ∀ z ∈ l, time z = time x → le y z := by
      intro z hz hzt
      rcases mem_cons.mp ((hmem z).mpr ⟨hz, hzt⟩) with rfl | hz
      · exact h.refl _
      · exact (pairwise_cons.mp hsorted).1 z hz
    obtain ⟨hy, hyt⟩ := (hmem y).mp mem_cons_self
    refine ⟨y, (mem_collapse h).mpr ⟨hy, ?_⟩, hyt, hleast x hx rfl⟩
    intro z hz hzt
    exact hleast z hz (hzt.trans hyt)

/-- Parts may be collapsed before they are put together. -/
theorem collapse_flatten (h : CollapseOrder time le) (parts : List (List α)) :
    collapse time le (parts.map (collapse time le)).flatten = collapse time le parts.flatten := by
  have hsub : ∀ x, x ∈ (parts.map (collapse time le)).flatten → x ∈ parts.flatten := by
    intro x hx
    obtain ⟨c, hc, hxc⟩ := mem_flatten.mp hx
    obtain ⟨part, hpart, rfl⟩ := mem_map.mp hc
    exact mem_flatten.mpr ⟨part, hpart, ((mem_collapse h).mp hxc).1⟩
  apply eq_of_pairwise_lt (collapse_pairwise h _) (collapse_pairwise h _)
  intro x
  rw [mem_collapse h, mem_collapse h]
  constructor
  · rintro ⟨hx, hleast⟩
    refine ⟨hsub x hx, ?_⟩
    intro y hy hyx
    obtain ⟨part, hpart, hyp⟩ := mem_flatten.mp hy
    obtain ⟨z, hz, hzt, hzy⟩ := exists_mem_collapse h hyp
    have hzf : z ∈ (parts.map (collapse time le)).flatten :=
      mem_flatten.mpr ⟨_, mem_map_of_mem hpart, hz⟩
    exact h.trans _ _ _ (hleast z hzf (hzt.trans hyx)) hzy
  · rintro ⟨hx, hleast⟩
    refine ⟨?_, fun y hy => hleast y (hsub y hy)⟩
    obtain ⟨part, hpart, hxp⟩ := mem_flatten.mp hx
    refine mem_flatten.mpr ⟨_, mem_map_of_mem hpart, (mem_collapse h).mpr ⟨hxp, ?_⟩⟩
    intro y hy
    exact hleast y (mem_flatten.mpr ⟨part, hpart, hy⟩)

end Imbh.Lib
