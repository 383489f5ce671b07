import Imbh.Segments.Files

/-!
# What a retention pass drops

A segment is dropped when the end in its entry is before the cutoff, and then the oldest ones while
the files are larger than the budget.
-/

namespace Imbh.Segments

open Lib List
open Storage (Table)

/-- Source: `imbh-core` `RetentionPolicy`; the age in nanoseconds -/
structure RetentionPolicy where
  maxAge : Option ℕ
  diskBudget : Option ℕ

/-- Source: `lib.rs` `Storage::retain`, `cutoff` -/
def cutoff (now : ℤ) (maxAge : ℕ) : ℤ := clampI64 (now - min maxAge (2 ^ 63 - 1))

/-- All segments, oldest first.
Source: `lib.rs` `Storage::retain`, `ordered` -/
def oldestFirst (lists : SegmentLists) : List SegmentRef :=
  (Table.all.flatMap lists).insertionSort fun a b => a.minTimeUnixNano ≤ b.minTimeUnixNano

/-- Source: `lib.rs` `Storage::retain`, the comparison with the cutoff -/
def agedOut (policy : RetentionPolicy) (now : ℤ) (s : SegmentRef) : Bool :=
  match policy.maxAge with
  | none => false
  | some maxAge => s.maxTimeUnixNano < cutoff now maxAge

def totalSize (size : Text → ℕ) (ss : List SegmentRef) : ℕ :=
  (ss.map fun s => size s.relativePath).sum

/-- Source: `lib.rs` `Storage::retain`, the loop over the survivors -/
def dropOverBudget (budget : ℕ) (size : Text → ℕ) : ℕ → List SegmentRef → List SegmentRef
  | _, [] => []
  | total, s :: survivors =>
      if budget < total then s :: dropOverBudget budget size (total - size s.relativePath) survivors
      else []

/-- The survivors that go for the budget.
Source: `lib.rs` `Storage::retain` -/
def overBudget (policy : RetentionPolicy) (size : Text → ℕ) (survivors : List SegmentRef) :
    List SegmentRef :=
  match policy.diskBudget with
  | none => []
  | some budget => dropOverBudget budget size (totalSize size survivors) survivors

/-- Source: `lib.rs` `Storage::retain`, `drop_set` -/
def dropSet (policy : RetentionPolicy) (now : ℤ) (size : Text → ℕ) (lists : SegmentLists) :
    List Text :=
  let ordered := oldestFirst lists
  let aged := paths (ordered.filter (agedOut policy now))
  aged ++ paths (overBudget policy size (ordered.filter fun s => s.relativePath ∉ aged))

/-- The shortest prefix of the survivors after which the rest is within the budget. -/
def ShortestPrefix (budget : Option ℕ) (size : Text → ℕ) (survivors victims : List SegmentRef) :
    Prop :=
  match budget with
  | none => victims = []
  | some budget => ∃ kept, survivors = victims ++ kept ∧ totalSize size kept ≤ budget ∧
      ∀ victims' kept', survivors = victims' ++ kept' → totalSize size kept' ≤ budget →
        victims.length ≤ victims'.length

theorem dropOverBudget_shortest (budget : ℕ) (size : Text → ℕ) (survivors : List SegmentRef) :
    ShortestPrefix (some budget) size survivors
      (dropOverBudget budget size (totalSize size survivors) survivors) := by
  induction survivors with
  | nil => exact ⟨[], rfl, Nat.zero_le _, fun _ _ _ _ => Nat.zero_le _⟩
  | cons s survivors ih =>
    have htotal : totalSize size (s :: survivors) = size s.relativePath + totalSize size survivors :=
      sum_cons
    rw [dropOverBudget]
    split
    · rename_i hover
      rw [htotal, Nat.add_sub_cancel_left]
      obtain ⟨kept, hkept, hle, hleast⟩ := ih
      refine ⟨kept, by rw [cons_append, ← hkept], hle, ?_⟩
      intro victims' kept' heq hle'
      cases victims' with
      | nil =>
        -- with nothing dropped the whole is over the budget
        rw [nil_append] at heq
        exact absurd hle' (by rw [← heq]; exact not_le.mpr hover)
      | cons v victims' =>
        exact Nat.succ_le_succ (hleast victims' kept' (List.cons.inj heq).2 hle')
    · rename_i hover
      exact ⟨s :: survivors, rfl, not_lt.mp hover, fun _ _ _ _ => Nat.zero_le _⟩

/-- **The loop over the survivors drops the shortest prefix.** -/
theorem overBudget_shortest (policy : RetentionPolicy) (size : Text → ℕ)
    (survivors : List SegmentRef) :
    ShortestPrefix policy.diskBudget size survivors (overBudget policy size survivors) := by
  unfold overBudget
  cases policy.diskBudget with
  | none => rfl
  | some budget => exact dropOverBudget_shortest budget size survivors

theorem ShortestPrefix.subset {budget : Option ℕ} {size : Text → ℕ}
    {survivors victims : List SegmentRef} (h : ShortestPrefix budget size survivors victims) :
    victims ⊆ survivors := by
  cases budget with
  | none =>
    rw [show victims = [] from h]
    exact nil_subset _
  | some budget =>
    obtain ⟨kept, rfl, -⟩ := h
    exact subset_append_left _ _

theorem oldestFirst_perm (lists : SegmentLists) :
    (oldestFirst lists).Perm (Table.all.flatMap lists) := perm_insertionSort _ _

theorem mem_oldestFirst {lists : SegmentLists} {s : SegmentRef} :
    s ∈ oldestFirst lists ↔ ∃ t, s ∈ lists t := by
  rw [(oldestFirst_perm lists).mem_iff, mem_flatMap]
  exact ⟨fun ⟨t, _, h⟩ => ⟨t, h⟩, fun ⟨t, h⟩ => ⟨t, Table.mem_all t, h⟩⟩

theorem oldestFirst_sorted (lists : SegmentLists) :
    (oldestFirst lists).Pairwise fun a b => a.minTimeUnixNano ≤ b.minTimeUnixNano := by
  have : Std.Total fun a b : SegmentRef => a.minTimeUnixNano ≤ b.minTimeUnixNano :=
    ⟨fun a b => le_total a.minTimeUnixNano b.minTimeUnixNano⟩
  have : IsTrans SegmentRef fun a b => a.minTimeUnixNano ≤ b.minTimeUnixNano :=
    ⟨fun _ _ _ => le_trans⟩
  exact pairwise_insertionSort _ _

/-- The survivors of the age, oldest first. -/
def survivors (policy : RetentionPolicy) (now : ℤ) (lists : SegmentLists) : List SegmentRef :=
  (oldestFirst lists).filter fun s => !agedOut policy now s

/-- No path being listed twice, a segment goes by its path when it goes by itself. -/
theorem mem_dropSet {policy : RetentionPolicy} {now : ℤ} {size : Text → ℕ} {lists : SegmentLists}
    (h : Distinct lists) {t : Table} {s : SegmentRef} (hs : s ∈ lists t) :
    s.relativePath ∈ dropSet policy now size lists ↔
      agedOut policy now s = true ∨ s ∈ overBudget policy size (survivors policy now lists) := by
  have heq : ∀ s' ∈ oldestFirst lists, s'.relativePath = s.relativePath → s' = s := by
    intro s' hs' hpath
    obtain ⟨t', hs't⟩ := mem_oldestFirst.mp hs'
    obtain rfl := h.tables hs't hs hpath
    exact eq_of_path_eq (h.nodup _) hs't hs hpath
  have hiff : ∀ s' ∈ oldestFirst lists,
      s'.relativePath ∈ paths ((oldestFirst lists).filter (agedOut policy now)) ↔
        agedOut policy now s' = true := by
    intro s' hs'
    constructor
    · intro hmem
      obtain ⟨s'', hs'', hpath⟩ := mem_paths.mp hmem
      obtain ⟨hs''o, haged⟩ := mem_filter.mp hs''
      obtain ⟨t', hs't⟩ := mem_oldestFirst.mp hs'
      obtain ⟨t'', hs't'⟩ := mem_oldestFirst.mp hs''o
      obtain rfl := h.tables hs't' hs't hpath
      rwa [← eq_of_path_eq (h.nodup _) hs't' hs't hpath]
    · intro haged
      exact mem_paths_of_mem (mem_filter.mpr ⟨hs', haged⟩)
  have hsurvivors : ((oldestFirst lists).filter fun s => s.relativePath ∉
      paths ((oldestFirst lists).filter (agedOut policy now))) = survivors policy now lists := by
    apply filter_congr
    intro s' hs'
    simp [hiff s' hs']
  unfold dropSet
  rw [mem_append, hiff s (mem_oldestFirst.mpr ⟨t, hs⟩), hsurvivors]
  apply or_congr_right
  constructor
  · intro hmem
    obtain ⟨s', hs', hpath⟩ := mem_paths.mp hmem
    have hs'o := mem_of_mem_filter ((overBudget_shortest policy size _).subset hs')
    rwa [← heq s' hs'o hpath]
  · exact mem_paths_of_mem

end Imbh.Segments
