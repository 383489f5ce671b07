import Imbh.Lib.Ascent

/-!
# The sticky layout of the waterfall

Above the scrolling window the innermost ancestors of the cursor row stay pinned, at most a third of the
pane. How far the window has scrolled depends on how many are pinned, and which are pinned on how far it has
scrolled.

* `sticky_layout_consistent` — the layout is the least fixed point, and what it shows of the cursor and of
  the ancestors.
-/

namespace Imbh.Tui.Sticky

open Lib List Option

/-- A row of the waterfall. Source: `waterfall.rs` `WaterfallRow` -/
structure WaterfallRow where
  parentRow : Option ℕ

/-! ## Ancestors -/

/-- The parent of a row, if it is above the row. -/
def parentAbove (rows : List WaterfallRow) (row : ℕ) : Option ℕ :=
  (rows[row]?.bind WaterfallRow.parentRow).filter fun parent => parent < row

theorem parentAbove_lt {rows : List WaterfallRow} {row parent : ℕ} (h : parentAbove rows row = some parent) :
    parent < row := by
  simpa using (filter_eq_some_iff.mp h).2

/-- The link to a parent that is above the row. -/
def IsParent (rows : List WaterfallRow) (row parent : ℕ) : Prop :=
  (∃ r, rows[row]? = some r ∧ r.parentRow = some parent) ∧ parent < row

theorem parentAbove_iff {rows : List WaterfallRow} {row parent : ℕ} :
    parentAbove rows row = some parent ↔ IsParent rows row parent := by
  rw [parentAbove, filter_eq_some_iff, bind_eq_some_iff, decide_eq_true_iff]
  rfl

/-- The ancestors of a row, innermost first. Source: `waterfall.rs` `ancestor_rows`, the loop -/
def ancestorWalk (rows : List WaterfallRow) (row : ℕ) : List ℕ :=
  match _h : parentAbove rows row with
  | none => []
  | some parent => parent :: ancestorWalk rows parent
termination_by row
decreasing_by exact parentAbove_lt _h

/-- Source: `waterfall.rs` `ancestor_rows` -/
def ancestorRows (rows : List WaterfallRow) (row : ℕ) : List ℕ := (ancestorWalk rows row).reverse

/-! ## The layout -/

/-- Source: `waterfall.rs` `StickyLayout` -/
structure StickyLayout where
  pinned : List ℕ
  offset : ℕ
  height : ℕ
  deriving DecidableEq

/-- The height of the window below so many pinned rows. -/
def heightBelow (viewport pinned : ℕ) : ℕ := max (viewport - pinned) 1

/-- The first row of a window of some height. -/
def offsetFor (cursor height : ℕ) : ℕ := if cursor < height then 0 else cursor - height + 1

/-- The first row of the window below so many pinned rows. -/
def offsetBelow (cursor viewport pinned : ℕ) : ℕ := offsetFor cursor (heightBelow viewport pinned)

/-- The innermost ancestors above the window below the pinned rows.
Source: `waterfall.rs` `sticky_layout`, the loop body -/
def nextPinned (chain : List ℕ) (cursor viewport cap : ℕ) (pinned : List ℕ) : List ℕ :=
  let next := chain.takeWhile (· < offsetBelow cursor viewport pinned.length)
  next.drop (next.length - cap)

/-- Source: `waterfall.rs` `sticky_layout` -/
def stickyLayout (rows : List WaterfallRow) (cursor viewport : ℕ) (enabled : Bool) : StickyLayout :=
  let viewport := max viewport 1
  let cap := if enabled then viewport / 3 else 0
  let chain := ancestorRows rows cursor
  let pinned := ascend (nextPinned chain cursor viewport cap) List.length (cap + 1) []
  let offset := offsetBelow cursor viewport pinned.length
  let pinned := pinned.filter (· < offset)
  ⟨pinned, offset, viewport - pinned.length⟩

/-! ## The chain -/

section

variable {rows : List WaterfallRow}

theorem mem_ancestorWalk {row a : ℕ} :
    a ∈ ancestorWalk rows row ↔ Relation.TransGen (IsParent rows) row a := by
  induction row using Nat.strong_induction_on with
  | _ row ih =>
    rw [ancestorWalk]
    split
    · rename_i hnone
      simp only [not_mem_nil, false_iff]
      intro h
      obtain ⟨p, hp, -⟩ := Relation.TransGen.head'_iff.mp h
      cases hnone.symm.trans (parentAbove_iff.mpr hp)
    · rename_i parent hparent
      rw [mem_cons, ih parent (parentAbove_lt hparent)]
      constructor
      · rintro (rfl | h)
        · exact .single (parentAbove_iff.mp hparent)
        · exact .head (parentAbove_iff.mp hparent) h
      · intro h
        obtain ⟨p, hp, h⟩ := Relation.TransGen.head'_iff.mp h
        cases hparent.symm.trans (parentAbove_iff.mpr hp)
        exact Relation.reflTransGen_iff_eq_or_transGen.mp h

theorem ancestorWalk_lt {row a : ℕ} (h : a ∈ ancestorWalk rows row) : a < row := by
  have hlinks := mem_ancestorWalk.mp h
  clear h
  induction hlinks with
  | single hparent => exact hparent.2
  | tail _ hparent ih => exact hparent.2.trans ih

theorem sorted_ancestorWalk (row : ℕ) : (ancestorWalk rows row).Pairwise (· > ·) := by
  induction row using Nat.strong_induction_on with
  | _ row ih =>
    rw [ancestorWalk]
    split
    · exact .nil
    · rename_i parent hparent
      exact .cons (fun a ha => ancestorWalk_lt ha) (ih parent (parentAbove_lt hparent))

theorem sorted_ancestorRows (row : ℕ) : (ancestorRows rows row).Pairwise (· < ·) :=
  pairwise_reverse.mpr (sorted_ancestorWalk row)

end

/-! ## The window -/

section

variable {cursor viewport : ℕ}

theorem offsetBelow_mono (cursor viewport : ℕ) : Monotone (offsetBelow cursor viewport) := by
  intro a b hab
  unfold offsetBelow offsetFor heightBelow
  split <;> split <;> omega

/-- The cursor row is in the window. -/
theorem offsetBelow_window {pinned : ℕ} (h : pinned < viewport) :
    offsetBelow cursor viewport pinned ≤ cursor ∧
      cursor < offsetBelow cursor viewport pinned + (viewport - pinned) := by
  unfold offsetBelow offsetFor heightBelow
  split <;> omega

/-- In an ascending list, the elements below a bound come first. -/
theorem takeWhile_lt_eq_filter {l : List ℕ} (h : l.Pairwise (· < ·)) (bound : ℕ) :
    l.takeWhile (· < bound) = l.filter (· < bound) := by
  induction l with
  | nil => rfl
  | cons a l ih =>
    obtain ⟨ha, hl⟩ := pairwise_cons.mp h
    by_cases hlt : a < bound
    · rw [takeWhile_cons_of_pos (by simpa using hlt), filter_cons_of_pos (by simpa using hlt), ih hl]
    · rw [takeWhile_cons_of_neg (by simpa using hlt), filter_cons_of_neg (by simpa using hlt)]
      refine (filter_eq_nil_iff.mpr fun b hb => ?_).symm
      have hab := ha b hb
      simp only [decide_eq_true_eq, not_lt]
      omega

end

/-- How many ancestors a layout with so many pinned rows would pin. -/
def pinnedCount (rows : List WaterfallRow) (cursor viewport pinned : ℕ) : ℕ :=
  min (viewport / 3) ((ancestorRows rows cursor).countP (· < offsetBelow cursor viewport pinned))

theorem pinnedCount_mono (rows : List WaterfallRow) (cursor viewport : ℕ) :
    Monotone (pinnedCount rows cursor viewport) := by
  intro a b hab
  refine min_le_min_left _ (countP_mono_left fun r _ hr => ?_)
  simp only [decide_eq_true_eq] at hr ⊢
  exact hr.trans_le (offsetBelow_mono cursor viewport hab)

theorem nextPinned_eq (rows : List WaterfallRow) (cursor viewport cap : ℕ) (pinned : List ℕ) :
    nextPinned (ancestorRows rows cursor) cursor viewport cap pinned =
      ((ancestorRows rows cursor).filter (· < offsetBelow cursor viewport pinned.length)).drop
        ((ancestorRows rows cursor).countP (· < offsetBelow cursor viewport pinned.length) - cap) := by
  unfold nextPinned
  rw [takeWhile_lt_eq_filter (sorted_ancestorRows cursor), countP_eq_length_filter]

theorem length_nextPinned (rows : List WaterfallRow) (cursor viewport : ℕ) (pinned : List ℕ) :
    (nextPinned (ancestorRows rows cursor) cursor viewport (viewport / 3) pinned).length =
      pinnedCount rows cursor viewport pinned.length := by
  rw [nextPinned_eq, length_drop, ← countP_eq_length_filter, pinnedCount]
  omega

/-- The chain has the rows that parent links to rows above lead to, in order. The number of pinned rows is the
least fixed point of its map, the cursor row is in the window, the innermost ancestors above the window are
pinned, a third of the pane of them at most, and the pinned rows and the window fill the pane. -/
theorem sticky_layout_consistent (rows : List WaterfallRow) (cursor : ℕ) {viewport : ℕ} (h : 0 < viewport) :
    let layout := stickyLayout rows cursor viewport true
    let above := (ancestorRows rows cursor).filter (· < layout.offset)
    ((∀ a, a ∈ ancestorRows rows cursor ↔ Relation.TransGen (IsParent rows) cursor a) ∧
      (ancestorRows rows cursor).Pairwise (· < ·)) ∧
    pinnedCount rows cursor viewport layout.pinned.length = layout.pinned.length ∧
      (∀ k, pinnedCount rows cursor viewport k = k → layout.pinned.length ≤ k) ∧
      (layout.offset ≤ cursor ∧ cursor < layout.offset + layout.height) ∧
      (layout.pinned <:+ above ∧ layout.pinned.length = min (viewport / 3) above.length) ∧
      layout.pinned.length + layout.height = viewport := by
  have hrounds : viewport / 3 < viewport / 3 + 1 + ([] : List ℕ).length := Nat.lt_succ_self _
  obtain ⟨b, hb, hfix, hleast⟩ := ascend_spec (pinnedCount_mono rows cursor viewport)
    (length_nextPinned rows cursor viewport) (fun k => min_le_left _ _) hrounds (Nat.zero_le _)
  set pinned := nextPinned (ancestorRows rows cursor) cursor viewport (viewport / 3) b with hpinned
  set offset := offsetBelow cursor viewport pinned.length with hoffset
  have hcount := length_nextPinned rows cursor viewport b
  rw [← hpinned, hfix] at hcount
  have hsuffix : pinned <:+ (ancestorRows rows cursor).filter (· < offset) := by
    rw [hpinned, nextPinned_eq, hfix]
    exact drop_suffix _ _
  have habove : pinned.filter (· < offset) = pinned :=
    filter_eq_self.mpr fun r hr => (mem_filter.mp (hsuffix.subset hr)).2
  have hlayout : stickyLayout rows cursor viewport true = ⟨pinned, offset, viewport - pinned.length⟩ := by
    have hmax : max viewport 1 = viewport := max_eq_left (Nat.succ_le_of_lt h)
    simp only [stickyLayout, if_true, hmax, hb]
    rw [← hoffset, habove]
  have hle : pinned.length ≤ viewport / 3 := by
    rw [hcount]
    exact min_le_left _ _
  dsimp only
  rw [hlayout]
  refine ⟨⟨fun a => mem_reverse.trans mem_ancestorWalk, sorted_ancestorRows cursor⟩, hcount.symm,
    fun k hk => hleast k (Nat.zero_le k) hk.le, ?_, ⟨hsuffix, ?_⟩, ?_⟩
  · exact offsetBelow_window (by omega)
  · rw [← countP_eq_length_filter]
    exact hcount
  · dsimp only
    omega

/-- Four rows, each with the one before it as its parent, and the first with the last. -/
def fourRows : List WaterfallRow := [⟨some 3⟩, ⟨some 0⟩, ⟨some 1⟩, ⟨some 2⟩]

/-- In a pane of three rows the second row is pinned above the last two. -/
theorem sticky_layout_fourRows :
    stickyLayout fourRows 3 3 true = ⟨[1], 2, 2⟩ ∧ pinnedCount fourRows 3 3 1 = 1 ∧
      Relation.TransGen (IsParent fourRows) 3 1 := by
  have hchain : ancestorRows fourRows 3 = [0, 1, 2] := by
    have hstep {row parent : ℕ} (h : parentAbove fourRows row = some parent) :
        ancestorWalk fourRows row = parent :: ancestorWalk fourRows parent := by
      rw [ancestorWalk]
      split
      · rename_i hnone
        exact nomatch hnone.symm.trans h
      · rename_i hparent
        rw [some.inj (hparent.symm.trans h)]
    have hroot : ancestorWalk fourRows 0 = [] := by
      rw [ancestorWalk]
      split
      · rfl
      · rename_i hparent
        exact absurd (parentAbove_lt hparent) (Nat.not_lt_zero _)
    rw [ancestorRows, hstep (by decide : _ = some 2), hstep (by decide : _ = some 1), hstep (by decide : _ = some 0), hroot]
    rfl
  have hlayout : stickyLayout fourRows 3 3 true = ⟨[1], 2, 2⟩ := by
    unfold stickyLayout
    rw [hchain]
    decide
  obtain ⟨⟨hmem, -⟩, hcount, -⟩ := sticky_layout_consistent fourRows 3 (by decide : 0 < 3)
  rw [hlayout] at hcount
  exact ⟨hlayout, hcount, (hmem 1).mp (by rw [hchain]; decide)⟩

end Imbh.Tui.Sticky
