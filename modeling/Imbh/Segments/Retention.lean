import Imbh.Segments.Store

/-!
# Retention

What a pass drops for the budget it drops as it should at all times, and the manifest and the files
agree afterwards. What it drops for its age goes by the end in the entry of the segment, and that is
before the end of a span whose duration is not an `i64`.

* `retainsRight_iff` — when a pass drops only what is older than the cutoff.
-/

namespace Imbh.Segments

open Lib Option
open Storage (Table)

variable {D P : Type}

/-- A pass leaves in `s'` what it should leave of `s`: it drops for its age what has no row that ends
at the cutoff or after, and of the survivors the shortest prefix, oldest first. -/
structure RetainsRight (policy : RetentionPolicy) (now : ℤ) (size : Text → ℕ) (refused : Text → Bool)
    (s s' : Store D P) : Prop where
  age : ∀ maxAge, policy.maxAge = some maxAge → ∀ t seg, seg ∈ s.listed t →
    agedOut policy now seg = true → ∀ rows, s.files seg.relativePath = some rows →
      ∀ r ∈ rows, endTime t r < cutoff now maxAge
  budget : ∃ survivors victims : List SegmentRef,
    survivors.Perm ((Table.all.flatMap s.listed).filter fun seg => !agedOut policy now seg) ∧
    survivors.Pairwise (fun a b => a.minTimeUnixNano ≤ b.minTimeUnixNano) ∧
    ShortestPrefix policy.diskBudget size survivors victims ∧
    ∀ t, s'.listed t =
      (s.listed t).filter fun seg => !agedOut policy now seg && decide (seg ∉ victims)
  manifest : s'.manifest = s'.listed
  kept : ∀ t seg, seg ∈ s'.listed t → (s'.files seg.relativePath).isSome
  unlinked : ∀ t seg, seg ∈ s.listed t → seg ∉ s'.listed t → refused seg.relativePath = false →
    s'.files seg.relativePath = none

/-- The span ends at the cutoff or after, or it does so even `2 ^ 64` nanoseconds earlier. -/
def ReachesCutoff (cutoff : ℤ) (r : TimedRow D) : Prop :=
  if r.durationNs < 2 ^ 63 then cutoff ≤ endTime .spans r
  else cutoff ≤ clampI64 (r.time + r.durationNs - 2 ^ 64)

/-- Every span that ends at the cutoff or after, and whose duration is not an `i64`, has one in its
segment that reaches the cutoff. -/
def LongSpansReach (policy : RetentionPolicy) (now : ℤ) (s : Store D P) : Prop :=
  ∀ maxAge, policy.maxAge = some maxAge → ∀ seg ∈ s.listed .spans, ∀ rows,
    s.files seg.relativePath = some rows → ∀ r ∈ rows, 2 ^ 63 ≤ r.durationNs →
      cutoff now maxAge ≤ endTime .spans r → ∃ r' ∈ rows, ReachesCutoff (cutoff now maxAge) r'

theorem reachesCutoff_iff {c : ℤ} {r : TimedRow D} :
    ReachesCutoff c r ↔ c ≤ storedEnd .spans r := by
  unfold ReachesCutoff
  split
  · rename_i hlt
    rw [storedEnd_of_lt hlt]
  · rename_i hge
    have hend : storedEnd .spans r = clampI64 (r.time + r.durationNs - 2 ^ 64) := by
      rw [storedEnd, if_pos rfl, saturatingAdd, asI64_eq r.duration_u64, if_neg hge, add_sub_assoc]
    rw [hend]

theorem agedOut_of_some {policy : RetentionPolicy} {maxAge : ℕ} (h : policy.maxAge = some maxAge)
    (now : ℤ) (seg : SegmentRef) :
    agedOut policy now seg = true ↔ seg.maxTimeUnixNano < cutoff now maxAge := by
  simp only [agedOut, h, decide_eq_true_eq]

/-- The age of a segment is that of its rows when its long spans reach the cutoff. -/
theorem age_iff {recs : List (PendingRewrite P)} {s : Store D P} (h : s.Inv recs)
    (policy : RetentionPolicy) (now : ℤ) :
    (∀ maxAge, policy.maxAge = some maxAge → ∀ t seg, seg ∈ s.listed t →
      agedOut policy now seg = true → ∀ rows, s.files seg.relativePath = some rows →
        ∀ r ∈ rows, endTime t r < cutoff now maxAge) ↔ LongSpansReach policy now s := by
  have hexact : ∀ t seg, seg ∈ s.listed t → ∀ rows, s.files seg.relativePath = some rows →
      Exact t rows seg.toBounds := by
    intro t seg hseg rows hrows
    obtain ⟨rows', hrows', hrec⟩ := h.recorded t seg hseg
    obtain rfl := some.inj (hrows.symm.trans hrows')
    exact hrec.exact
  constructor
  · intro hage maxAge hmax seg hseg rows hrows r hr hlong hend
    have hnot : ¬ agedOut policy now seg = true := by
      intro haged
      exact absurd (hage maxAge hmax _ seg hseg haged rows hrows r hr) (not_lt.mpr hend)
    rw [agedOut_of_some hmax, not_lt] at hnot
    obtain ⟨r', hr', hstored⟩ := (hexact _ seg hseg rows hrows).max.1
    exact ⟨r', hr', reachesCutoff_iff.mpr (hstored ▸ hnot)⟩
  · intro hreach maxAge hmax t seg hseg haged rows hrows r hr
    rw [agedOut_of_some hmax] at haged
    have hstored : ∀ r ∈ rows, storedEnd t r < cutoff now maxAge := fun r hr =>
      lt_of_le_of_lt ((hexact t seg hseg rows hrows).max.2 ⟨r, hr, rfl⟩) haged
    by_contra hge
    have hend : cutoff now maxAge ≤ endTime t r := not_lt.mp hge
    by_cases hlt : r.durationNs < 2 ^ 63
    · exact absurd (hstored r hr) (by rw [storedEnd_of_lt hlt]; exact not_lt.mpr hend)
    · by_cases ht : t = .spans
      · subst ht
        obtain ⟨r', hr', hreach⟩ :=
          hreach maxAge hmax seg hseg rows hrows r hr (not_lt.mp hlt) hend
        exact absurd (hstored r' hr') (not_lt.mpr (reachesCutoff_iff.mp hreach))
      · have hsame : storedEnd t r = endTime t r := by
          unfold storedEnd endTime
          rw [if_neg ht, if_neg ht]
        exact absurd (hstored r hr) (by rw [hsame]; exact not_lt.mpr hend)

/-- What is left is what is neither aged out nor over the budget. -/
theorem retain_listed_eq {recs : List (PendingRewrite P)} {s : Store D P} (h : s.Inv recs)
    (policy : RetentionPolicy) (now : ℤ) (size : Text → ℕ) (refused : Text → Bool) (t : Table) :
    (s.retain policy now size refused).listed t = (s.listed t).filter fun seg =>
      !agedOut policy now seg &&
        decide (seg ∉ overBudget policy size (survivors policy now s.listed)) := by
  rw [Store.retain_listed]
  apply List.filter_congr
  intro seg hseg
  have hiff : seg.relativePath ∈ dropSet policy now size s.listed ↔ _ := mem_dropSet h.distinct hseg
  by_cases haged : agedOut policy now seg = true <;> simp [hiff, haged]

/-- **What a retention pass drops is what it should drop** when the long spans of the segments that
reach the cutoff have one with them whose stored end does; what it drops for the budget is right at
all times. -/
theorem retainsRight_iff [DecidableEq P] {digestFile : List (TimedRow D) → ℕ} {ops : List (Op D P)}
    {s : Store D P} (hrun : run (Store.step digestFile) Store.empty ops = some s)
    (policy : RetentionPolicy) (now : ℤ) (size : Text → ℕ) (refused : Text → Bool) :
    RetainsRight policy now size refused s (s.retain policy now size refused) ↔
      LongSpansReach policy now s := by
  have h := Store.run_inv hrun
  have h' := Store.inv_retain h policy now size refused
  rw [← age_iff h policy now]
  constructor
  · exact fun hright => hright.age
  · intro hage
    refine ⟨hage, ?_, h'.manifest, ?_, ?_⟩
    · refine ⟨survivors policy now s.listed, _, ?_, ?_, overBudget_shortest policy size _,
        retain_listed_eq h policy now size refused⟩
      · exact (oldestFirst_perm s.listed).filter _
      · exact (oldestFirst_sorted s.listed).filter _
    · intro t seg hseg
      obtain ⟨rows, hrows, -⟩ := h'.recorded t seg hseg
      rw [hrows, isSome_some]
    · intro t seg hseg hnot hrefused
      rw [Store.retain_listed, List.mem_filter] at hnot
      have hdrop : seg.relativePath ∈ dropSet policy now size s.listed := by
        by_contra hdrop
        exact hnot ⟨hseg, by simpa using hdrop⟩
      rw [Store.retain_files, unlink, if_pos ⟨hdrop, hrefused⟩]

/-- A span of five nanoseconds. -/
def spanAt (time : ℕ) (h : time < 2 ^ 63) : TimedRow Unit :=
  { time := time, durationNs := 5, data := (), time_i64 := by omega, duration_u64 := by decide }

/-- Three batches of spans are sealed, the first two of them compacted before the third. -/
def threeBatches : List (Op Unit Unit) :=
  [.ingest .spans [spanAt 10 (by decide)], .sealBuffers fun _ => "spans/d/1".toList,
    .ingest .spans [spanAt 20 (by decide)], .sealBuffers fun _ => "spans/d/2".toList,
    .compact 1 (fun _ => false) ["spans/d/3".toList] (fun _ => false),
    .ingest .spans [spanAt 900 (by decide)], .sealBuffers fun _ => "spans/e/4".toList]

/-- A pass with an age and a budget after that. -/
theorem retainsRight_threeBatches :
    ∃ s, run (Store.step fun _ => 0) Store.empty threeBatches = some s ∧
      RetainsRight { maxAge := some 500, diskBudget := some 3 } 1000 (fun _ => 2) (fun _ => false) s
        (s.retain { maxAge := some 500, diskBudget := some 3 } 1000 (fun _ => 2) fun _ => false) := by
  obtain ⟨s, hrun⟩ : ∃ s : Store Unit Unit,
      run (Store.step fun _ => 0) Store.empty threeBatches = some s :=
    isSome_iff_exists.mp (by rfl)
  have hshort : ((run (Store.step fun _ => 0) Store.empty threeBatches).all fun s =>
      (s.listed .spans).all fun seg => ((s.files seg.relativePath).getD []).all fun r =>
        r.durationNs < 2 ^ 63) = true := by decide
  rw [hrun, all_some] at hshort
  refine ⟨s, hrun, (retainsRight_iff hrun _ _ _ _).mpr ?_⟩
  intro maxAge _ seg hseg rows hrows r hr hlong
  have hseg := List.all_eq_true.mp hshort seg hseg
  rw [hrows] at hseg
  exact absurd hlong (not_le.mpr (of_decide_eq_true (List.all_eq_true.mp hseg r hr)))

theorem hundred_i64 : -2 ^ 63 ≤ (100 : ℤ) ∧ (100 : ℤ) < 2 ^ 63 := by
  constructor <;> norm_num

theorem half_u64 : 2 ^ 63 < 2 ^ 64 := by norm_num

/-- One span that is longer than an `i64`, and has not ended. -/
def endlessSpan : TimedRow Unit :=
  { time := 100, durationNs := 2 ^ 63, data := (), time_i64 := hundred_i64, duration_u64 := half_u64 }

/-- A pass drops its segment for its age. -/
theorem drops_endlessSpan :
    ∃ s, run (Store.step fun _ => 0) (Store.empty : Store Unit Unit)
        [.ingest .spans [endlessSpan], .sealBuffers fun _ => "spans/d/1".toList] = some s ∧
      ¬ RetainsRight { maxAge := some 1000, diskBudget := none } 2000 (fun _ => 2) (fun _ => false) s
        (s.retain { maxAge := some 1000, diskBudget := none } 2000 (fun _ => 2) fun _ => false) := by
  refine ⟨_, rfl, fun hright => ?_⟩
  have hage := hright.age 1000 rfl .spans _ List.mem_cons_self (by decide) _ rfl endlessSpan
    List.mem_cons_self
  exact absurd hage (by decide)

end Imbh.Segments
