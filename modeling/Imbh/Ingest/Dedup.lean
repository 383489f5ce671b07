import Imbh.Lib.Text
import Imbh.Lib.Window
import Imbh.Storage.Inner

/-!
# The duplicate-timestamp guard for metric ingest (`dedup.rs`)

Under `Duplicates::Reject` a metric point whose `(series, timestamp)` pair is remembered is dropped
from its export. The pairs are remembered in a `Window`.

The hash of a series is a parameter, without hypotheses, and so is the type `V` of what a row holds
besides the fields the guard reads. The log line of a rejection is left out.

* `admit_window` — what a guard refuses, in terms of the keys that it admitted last.
-/

namespace Imbh.Ingest

open Lib List
open Storage (Table)

/-- Source: `imbh-core` `Duplicates` -/
inductive Duplicates
  | errorOnRead
  | lastWins
  | reject (recent : ℕ)
  deriving DecidableEq

/-- Source: `imbh-core` `Duplicates::recent` -/
def Duplicates.recent : Duplicates → Option ℕ
  | .reject recent => some (max recent 2)
  | _ => none

/-- A series identity plus the point's event timestamp.
Source: `dedup.rs` `SeenKey` -/
structure SeenKey where
  series : UInt64 × UInt64
  ts : Int64
  deriving DecidableEq

/-- A metric row: the fields the guard reads, and the rest.
Source: `imbh-core` `HistogramRow`, `ExpHistogramRow`, `SummaryRow` -/
structure MetricRow (V : Type) where
  metric : Text
  service : Option Text
  attributes : Text
  timeUnixNano : Int64
  rest : V
  deriving DecidableEq

/-- Source: `imbh-core` `ScalarMetricRow` -/
structure ScalarMetricRow (V : Type) extends MetricRow V where
  table : Table
  deriving DecidableEq

/-- All four metric row kinds decoded from one request.
Source: `lib.rs` `DecodedMetrics` -/
structure DecodedMetrics (V : Type) where
  rows : List (ScalarMetricRow V) := []
  histograms : List (MetricRow V) := []
  expHistograms : List (MetricRow V) := []
  summaries : List (MetricRow V) := []
  accepted : ℕ := 0
  rejected : ℕ := 0

/-- Source: `dedup.rs` `KIND_GAUGE` -/
def kindGauge : UInt8 := 0

/-- Source: `dedup.rs` `KIND_SUM` -/
def kindSum : UInt8 := 1

/-- Source: `dedup.rs` `KIND_HISTOGRAM` -/
def kindHistogram : UInt8 := 2

/-- Source: `dedup.rs` `KIND_EXP_HISTOGRAM` -/
def kindExpHistogram : UInt8 := 3

/-- Source: `dedup.rs` `KIND_SUMMARY` -/
def kindSummary : UInt8 := 4

/-- The remembered keys.
Source: `dedup.rs` `GuardState`, `GuardState::admit` -/
abbrev GuardState := Window SeenKey

/-- Source: `dedup.rs` `GuardState::new` -/
def GuardState.new (recent : ℕ) : GuardState := Window.empty (max (recent / 2) 1)

/-- The per-database guard; it has no state unless the policy is `reject`.
Source: `dedup.rs` `DedupGuard` -/
structure DedupGuard where
  state : Option GuardState
  rejected : UInt64

/-- Source: `dedup.rs` `DedupGuard::new` -/
def DedupGuard.new (policy : Duplicates) : DedupGuard := ⟨policy.recent.map GuardState.new, 0⟩

variable {V R : Type}

section guard

variable (seriesHash : UInt8 → Text → Option Text → Text → UInt64 × UInt64)

/-- Source: `dedup.rs` `SeriesIdentity::key` -/
def MetricRow.key (kind : UInt8) (r : MetricRow V) : SeenKey :=
  ⟨seriesHash kind r.metric r.service r.attributes, r.timeUnixNano⟩

/-- Source: `dedup.rs` `impl SeriesIdentity for ScalarMetricRow` -/
def ScalarMetricRow.key (r : ScalarMetricRow V) : SeenKey :=
  r.toMetricRow.key seriesHash (if r.table = .metricsSum then kindSum else kindGauge)

/-- Drop the rows that are remembered already: the rows that stay, and how many were dropped.
Source: `dedup.rs` `filter` -/
def filterRows (key : R → SeenKey) : GuardState → List R → GuardState × List R × ℕ
  | state, [] => (state, [], 0)
  | state, row :: rows =>
      let (state, admitted) := state.admits (key row)
      let (state, kept, dropped) := filterRows key state rows
      if admitted then (state, row :: kept, dropped) else (state, kept, dropped + 1)

/-- Source: `dedup.rs` `DedupGuard::retain` -/
def DedupGuard.retain (g : DedupGuard) (d : DecodedMetrics V) :
    DedupGuard × DecodedMetrics V × ℕ :=
  match g.state with
  | none => (g, d, 0)
  | some state =>
      let (state, rows, n₁) := filterRows (ScalarMetricRow.key seriesHash) state d.rows
      let (state, histograms, n₂) :=
        filterRows (MetricRow.key seriesHash kindHistogram) state d.histograms
      let (state, expHistograms, n₃) :=
        filterRows (MetricRow.key seriesHash kindExpHistogram) state d.expHistograms
      let (state, summaries, n₄) :=
        filterRows (MetricRow.key seriesHash kindSummary) state d.summaries
      let dropped := n₁ + n₂ + n₃ + n₄
      (⟨some state, g.rejected + UInt64.ofNat dropped⟩,
        { d with
          rows := rows
          histograms := histograms
          expHistograms := expHistograms
          summaries := summaries }, dropped)

/-- The part of `decode_metrics` behind the decoder: apply the guard, and count.
Source: `lib.rs` `decode_metrics` -/
def guardDecoded (d : DecodedMetrics V) (g : DedupGuard) : DedupGuard × DecodedMetrics V :=
  let (g, d, rejected) := g.retain seriesHash d
  (g, { d with
    rejected := rejected
    accepted := d.rows.length + d.histograms.length + d.expHistograms.length +
      d.summaries.length })

end guard

/-! ## The keys that were admitted last -/

/-- Neither generation has more than half of `recent`. A refused key is among so many of the last admitted keys as
both have together, and every key among so many as one has is refused. -/
theorem admit_window (recent : ℕ) (keys : List SeenKey) (key : SeenKey) :
    let cap := max (recent / 2) 1
    let state := (GuardState.new recent).after keys
    let admitted := (GuardState.new recent).admitted keys
    state.current.card ≤ cap ∧ state.previous.card ≤ cap ∧
    ((state.admits key).2 = false → key ∈ admitted.drop (admitted.length - 2 * cap)) ∧
    (key ∈ admitted.drop (admitted.length - cap) → (state.admits key).2 = false) := by
  intro cap state admitted
  have hcap : state.cap = cap := Window.cap_after _ keys
  have hpos : 0 < (GuardState.new recent).cap := Nat.lt_of_lt_of_le Nat.zero_lt_one (le_max_right _ _)
  have hremembers : state.Remembers admitted := (Window.remembers_empty cap).after hpos keys
  have hrefused : (state.admits key).2 = false ↔ key ∈ state.remembered := by
    rw [← Bool.not_eq_true, Window.admits_snd, not_not]
  rw [hrefused, ← hcap]
  exact ⟨hremembers.card_le.1, hremembers.card_le.2, hremembers.mem_drop, hremembers.mem_remembered⟩

/-! ## The points of an export -/

/-- A point of an export. -/
inductive Point (V : Type)
  | scalar (row : ScalarMetricRow V)
  | histogram (row : MetricRow V)
  | expHistogram (row : MetricRow V)
  | summary (row : MetricRow V)
  deriving DecidableEq

/-- The points of an export in the order in which the guard sees them. -/
def DecodedMetrics.points (d : DecodedMetrics V) : List (Point V) :=
  d.rows.map .scalar ++ d.histograms.map .histogram ++ d.expHistograms.map .expHistogram ++
    d.summaries.map .summary

/-- The points with a positive verdict. -/
def keep : List R → List Bool → List R
  | row :: rows, verdict :: verdicts =>
      if verdict then row :: keep rows verdicts else keep rows verdicts
  | _, _ => []

@[simp] theorem keep_cons (row : R) (rows : List R) (v : Bool) (vs : List Bool) :
    keep (row :: rows) (v :: vs) = if v then row :: keep rows vs else keep rows vs := rfl

@[simp] theorem keep_nil (vs : List Bool) : keep ([] : List R) vs = [] := by
  rcases vs with _ | _ <;> rfl

/-- Verdicts on two lists of rows are taken one after the other. -/
theorem keep_append (rows rows' : List R) (vs vs' : List Bool) (h : vs.length = rows.length) :
    keep (rows ++ rows') (vs ++ vs') = keep rows vs ++ keep rows' vs' := by
  induction rows generalizing vs with
  | nil =>
      rw [length_eq_zero_iff.mp h]
      rfl
  | cons row rows ih =>
      obtain ⟨v, vs, rfl⟩ := exists_cons_of_length_eq_add_one h
      have hlen : vs.length = rows.length := Nat.succ.inj h
      rw [cons_append, cons_append, keep_cons, keep_cons, ih vs hlen]
      split <;> rfl

theorem keep_map {S : Type} (f : R → S) (rows : List R) (vs : List Bool) :
    keep (rows.map f) vs = (keep rows vs).map f := by
  induction rows generalizing vs with
  | nil => rw [map_nil, keep_nil, keep_nil, map_nil]
  | cons row rows ih =>
      rcases vs with _ | ⟨v, vs⟩
      · rfl
      · rw [map_cons, keep_cons, keep_cons, ih]
        split <;> rfl

/-- Where every positive verdict of one list is one of the other, what the first keeps, the second
keeps. -/
theorem keep_sublist (rows : List R) {vs us : List Bool} (hlen : us.length = rows.length)
    (h : ∀ i : ℕ, vs[i]? = some true → us[i]? = some true) :
    (keep rows vs).Sublist (keep rows us) := by
  induction rows generalizing vs us with
  | nil =>
      rw [keep_nil]
      exact nil_sublist _
  | cons row rows ih =>
      obtain ⟨u, us, rfl⟩ := exists_cons_of_length_eq_add_one hlen
      rcases vs with _ | ⟨v, vs⟩
      · exact nil_sublist _
      · have htail := ih (Nat.succ.inj hlen) (fun i hi => h (i + 1) hi)
        have hhead : v = true → u = true := fun hv =>
          Option.some.inj (h 0 (congrArg some hv))
        rw [keep_cons, keep_cons]
        cases v
        · rw [if_neg Bool.false_ne_true]
          split
          · exact htail.cons _
          · exact htail
        · rw [if_pos rfl, if_pos (hhead rfl)]
          exact htail.cons_cons _

/-- What is kept of a list, by its places. -/
theorem mem_keep_iff {row : R} {rows : List R} {vs : List Bool} :
    row ∈ keep rows vs ↔ ∃ i : ℕ, rows[i]? = some row ∧ vs[i]? = some true := by
  induction rows generalizing vs with
  | nil => simp
  | cons x rows ih =>
      rcases vs with _ | ⟨v, vs⟩
      · simp [keep]
      · have hsplit : (∃ i : ℕ, (x :: rows)[i]? = some row ∧ (v :: vs)[i]? = some true) ↔
            x = row ∧ v = true ∨ ∃ i : ℕ, rows[i]? = some row ∧ vs[i]? = some true := by
          rw [← Nat.or_exists_add_one]
          simp
        rw [hsplit, ← ih, keep_cons]
        cases v
        · simp
        · simp [eq_comm]

/-- A list is what is kept of it and what is refused. -/
theorem keep_perm (rows : List R) {vs : List Bool} (h : vs.length = rows.length) :
    rows.Perm (keep rows vs ++ keep rows (vs.map (!·))) := by
  induction rows generalizing vs with
  | nil =>
      rw [keep_nil, keep_nil]
      exact Perm.refl _
  | cons row rows ih =>
      obtain ⟨v, vs, rfl⟩ := exists_cons_of_length_eq_add_one h
      have hrest := ih (Nat.succ.inj h)
      rw [map_cons, keep_cons, keep_cons]
      cases v
      · exact (hrest.cons row).trans perm_middle.symm
      · exact hrest.cons row

section guard

variable (seriesHash : UInt8 → Text → Option Text → Text → UInt64 × UInt64)

/-- Source: `dedup.rs` `SeriesIdentity::key`, of each row kind -/
def Point.key : Point V → SeenKey
  | .scalar row => row.key seriesHash
  | .histogram row => row.key seriesHash kindHistogram
  | .expHistogram row => row.key seriesHash kindExpHistogram
  | .summary row => row.key seriesHash kindSummary

/-- The keys of the points of an export. -/
def DecodedMetrics.keys (d : DecodedMetrics V) : List SeenKey :=
  d.points.map (Point.key seriesHash)

/-- What is left of a list of rows, from the verdicts on their keys. -/
theorem filterRows_eq (key : R → SeenKey) (state : GuardState) (rows : List R) :
    (filterRows key state rows).1 = state.after (rows.map key) ∧
      (filterRows key state rows).2.1 = keep rows (state.verdicts (rows.map key)) := by
  induction rows generalizing state with
  | nil => exact ⟨rfl, rfl⟩
  | cons row rows ih =>
      obtain ⟨hstate, hkept⟩ := ih (state.admits (key row)).1
      simp only [filterRows, map_cons, Window.after_cons, Window.verdicts, keep_cons]
      split
      · exact ⟨hstate, by rw [hkept]⟩
      · exact ⟨hstate, hkept⟩

/-- **What the guard keeps of an export**, and what it remembers after it. -/
theorem retain_spec {g : DedupGuard} {state : GuardState} (h : g.state = some state)
    (d : DecodedMetrics V) :
    (g.retain seriesHash d).1.state = some (state.after (d.keys seriesHash)) ∧
      (g.retain seriesHash d).2.1.points = keep d.points (state.verdicts (d.keys seriesHash)) := by
  obtain ⟨h₁, k₁⟩ := filterRows_eq (ScalarMetricRow.key seriesHash) state d.rows
  set s₁ := filterRows (ScalarMetricRow.key seriesHash) state d.rows with hs₁
  obtain ⟨h₂, k₂⟩ := filterRows_eq (MetricRow.key seriesHash kindHistogram) s₁.1 d.histograms
  set s₂ := filterRows (MetricRow.key seriesHash kindHistogram) s₁.1 d.histograms with hs₂
  obtain ⟨h₃, k₃⟩ := filterRows_eq (MetricRow.key seriesHash kindExpHistogram) s₂.1 d.expHistograms
  set s₃ := filterRows (MetricRow.key seriesHash kindExpHistogram) s₂.1 d.expHistograms with hs₃
  obtain ⟨h₄, k₄⟩ := filterRows_eq (MetricRow.key seriesHash kindSummary) s₃.1 d.summaries
  have hkeys : d.keys seriesHash = d.rows.map (ScalarMetricRow.key seriesHash) ++
      d.histograms.map (MetricRow.key seriesHash kindHistogram) ++
      d.expHistograms.map (MetricRow.key seriesHash kindExpHistogram) ++
      d.summaries.map (MetricRow.key seriesHash kindSummary) := by
    unfold DecodedMetrics.keys DecodedMetrics.points
    simp only [map_append, map_map]
    rfl
  have hretain : g.retain seriesHash d = (⟨some (filterRows (MetricRow.key seriesHash kindSummary)
      s₃.1 d.summaries).1, (g.retain seriesHash d).1.rejected⟩, { d with
        rows := s₁.2.1
        histograms := s₂.2.1
        expHistograms := s₃.2.1
        summaries := (filterRows (MetricRow.key seriesHash kindSummary) s₃.1 d.summaries).2.1 },
      (g.retain seriesHash d).2.2) := by
    unfold DedupGuard.retain
    rw [h]
  constructor
  · rw [hretain, hkeys]
    simp only [Window.after_append]
    rw [h₄, h₃, h₂, h₁]
  · rw [hretain, hkeys]
    unfold DecodedMetrics.points
    simp only [Window.verdicts_append, Window.after_append]
    rw [keep_append _ _ _ _ (by simp), keep_append _ _ _ _ (by simp),
      keep_append _ _ _ _ (by simp), keep_map, keep_map, keep_map, keep_map]
    rw [k₄, k₃, k₂, k₁, h₃, h₂, h₁]

end guard

end Imbh.Ingest
