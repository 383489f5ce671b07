import Imbh.Lgtm.LogQl

/-!
# Bounded fetches

The planned bounds of a read contain each window that an evaluator looks at, so that evaluating what is
inside the bounds gives what evaluating all there is gives.

* `bounded_sufficient` — for PromQL and, within the limit of entries, for LogQL.
-/

namespace Imbh.Lgtm

open Lib Imbh.Core

/-! ## Bounds -/

/-- The windows of the instants are in the bounds. -/
def FetchBounds.Cover (bounds : FetchBounds) (instants : List ℤ) (horizonNs : ℕ) : Prop :=
  ∀ at' ∈ instants, ∀ t, inWindow (saturatingSub at' horizonNs) at' t = true → bounds.contains t = true

/-- A filter by a window, of what is in the bounds. -/
theorem filter_inside {α : Type} {time : α → ℤ} {bounds : FetchBounds} {start stop : ℤ}
    (h : ∀ t, inWindow start stop t = true → bounds.contains t = true) (l : List α) :
    (l.filter fun a => bounds.contains (time a)).filter (fun a => inWindow start stop (time a)) =
      l.filter fun a => inWindow start stop (time a) := by
  rw [List.filter_filter]
  apply List.filter_congr
  intro a _
  by_cases hin : inWindow start stop (time a) = true
  · rw [hin, h _ hin]
    rfl
  · rw [Bool.not_eq_true] at hin
    rw [hin]
    rfl

/-- The samples inside the bounds. -/
def PromSeries.inside (bounds : FetchBounds) (series : PromSeries) : PromSeries :=
  { series with samples := series.samples.filter fun s => bounds.contains s.timestampNs }

/-- The points inside the bounds. -/
def PromHistogramSeries.inside (bounds : FetchBounds) (series : PromHistogramSeries) :
    PromHistogramSeries :=
  { series with points := series.points.filter fun p => bounds.contains p.timestampNs }

variable {matchers : List LabelMatcher} {at' : ℤ}

section

variable {regex : Text → Option (Text → Bool)} {arith : Arith} {bounds : FetchBounds}
  {instants : List ℤ} {limits : EvalLimits}

theorem selectInstant_inside {lookbackNs : ℕ} (hcover : bounds.Cover instants lookbackNs) (hat : at' ∈ instants)
    (series : List PromSeries) :
    selectInstant regex matchers at' lookbackNs series =
      selectInstant regex matchers at' lookbackNs (series.map (PromSeries.inside bounds)) := by
  apply flatMapM_map
  intro item _
  dsimp only [PromSeries.inside]
  rw [filter_inside (hcover at' hat)]

theorem rateAt_inside {windowNs : ℕ} (hcover : bounds.Cover instants windowNs) (hat : at' ∈ instants)
    (item : PromSeries) :
    rateAt regex arith matchers windowNs at' item =
      rateAt regex arith matchers windowNs at' (item.inside bounds) := by
  unfold rateAt selectRange
  dsimp only [PromSeries.inside]
  rw [filter_inside (hcover at' hat)]

theorem histogramRates_inside {windowNs : ℕ} {grouping : Grouping} (hcover : bounds.Cover instants windowNs)
    (hat : at' ∈ instants) (histogram : PromHistogramSeries) :
    histogramRates regex arith matchers windowNs grouping at' histogram =
      histogramRates regex arith matchers windowNs grouping at' (histogram.inside bounds) := by
  unfold histogramRates
  dsimp only [PromHistogramSeries.inside]
  rw [filter_inside (hcover at' hat)]

/-! ## Series without samples -/

/-- Patterns that were checked do not fail. -/
theorem selectorMatches_ok (h : validMatchers regex matchers = .ok ()) (labels : LabelSet) :
    ∃ found, selectorMatches regex labels matchers = .ok found := by
  induction matchers with
  | nil => exact ⟨true, rfl⟩
  | cons m matchers ih =>
    unfold validMatchers at h
    split at h
    · exact absurd h (by simp)
    · rename_i hvalid
      obtain ⟨rest, hrest⟩ := ih h
      have hm : ∃ found, m.matches regex labels = .ok found := by
        unfold LabelMatcher.matches
        rcases hop : m.op with _ | _ | _ | _
        · exact ⟨_, rfl⟩
        · exact ⟨_, rfl⟩
        · rcases hregex : regex (anchored m.value) with _ | isMatch
          · exact absurd ⟨.inl hop, by rw [hregex]; rfl⟩ hvalid
          · exact ⟨_, rfl⟩
        · rcases hregex : regex (anchored m.value) with _ | isMatch
          · exact absurd ⟨.inr hop, by rw [hregex]; rfl⟩ hvalid
          · exact ⟨_, rfl⟩
      obtain ⟨found, hfound⟩ := hm
      rw [selectorMatches, hfound]
      rcases found
      · exact ⟨false, rfl⟩
      · exact ⟨rest, hrest⟩

/-- Series without samples do not matter to an instant. -/
theorem selectInstant_nonempty {lookbackNs : ℕ} (hvalid : validMatchers regex matchers = .ok ())
    (series : List PromSeries) :
    selectInstant regex matchers at' lookbackNs (series.filter fun item => item.samples ≠ []) =
      selectInstant regex matchers at' lookbackNs series := by
  apply flatMapM_filter
  intro item _ hempty
  obtain ⟨found, hfound⟩ := selectorMatches_ok hvalid item.labels
  have hnil : item.samples = [] := by simpa using hempty
  rw [hfound, hnil]
  rcases found <;> rfl

/-- A series without samples has no rate. -/
theorem rateAt_empty {windowNs : ℕ} {item : PromSeries} (hvalid : validMatchers regex matchers = .ok ())
    (hwindow : windowNs ≠ 0) (hat : minInstant < at') (hempty : item.samples = []) :
    rateAt regex arith matchers windowNs at' item = .ok [] := by
  have hstart : saturatingSub at' windowNs < at' := by
    have hmin : (1 : ℤ) ≤ ((min windowNs (2 ^ 63 - 1) : ℕ) : ℤ) := by
      have hone : 1 ≤ min windowNs (2 ^ 63 - 1) := le_min (Nat.one_le_iff_ne_zero.mpr hwindow) (by decide)
      exact_mod_cast hone
    unfold saturatingSub clampI64
    rcases max_choice minInstant (min maxInstant (at' - (min windowNs (2 ^ 63 - 1) : ℕ))) with h | h
    · rw [h]
      exact hat
    · rw [h]
      exact lt_of_le_of_lt (min_le_right _ _) (by omega)
  obtain ⟨found, hfound⟩ := selectorMatches_ok hvalid item.labels
  unfold rateAt selectRange extrapolatedRate
  rw [hfound, if_neg hwindow, hempty]
  rcases found
  · rfl
  · simp only [List.filter_nil, bind, Except.bind, pure, Except.pure, if_true, if_neg (not_le.mpr hstart)]
    rfl

theorem histogramRates_empty {windowNs : ℕ} {grouping : Grouping} {histogram : PromHistogramSeries}
    (hvalid : validMatchers regex matchers = .ok ()) (hempty : histogram.points = []) :
    histogramRates regex arith matchers windowNs grouping at' histogram = .ok [] := by
  obtain ⟨found, hfound⟩ := selectorMatches_ok hvalid histogram.labels
  unfold histogramRates
  rw [hfound, hempty]
  rcases found <;> rfl

end

/-! ## Plans -/

section

variable {regex : Text → Option (Text → Bool)} {arith : Arith} {range : EvalRange}
  {limits : EvalLimits} {instants : List ℤ} {request : PromFetchRequest}

/-- A fetch has valid matchers and the bounds of its horizon. -/
theorem leafFetch_ok {horizonNs : ℕ} {purpose : PromFetchPurpose}
    (h : leafFetch regex range limits matchers horizonNs purpose = .ok [request]) :
    validMatchers regex matchers = .ok () ∧
      request.bounds = ⟨saturatingSub range.startNs horizonNs, range.endNs⟩ := by
  obtain ⟨_, hvalid, h⟩ := bind_eq_ok.mp h
  obtain ⟨bounds, hbounds, h⟩ := bind_eq_ok.mp h
  refine ⟨hvalid, ?_⟩
  rw [← (List.cons.inj (Except.ok.inj h)).1]
  unfold FetchBounds.new at hbounds
  split at hbounds
  · exact absurd hbounds (by simp)
  · exact (Except.ok.inj hbounds).symm

/-- The bounds of a leaf contain its windows. -/
theorem cover_of_leafFetch {horizonNs : ℕ} {purpose : PromFetchPurpose}
    (h : leafFetch regex range limits matchers horizonNs purpose = .ok [request])
    (hinstants : ∀ t ∈ instants, range.startNs ≤ t ∧ t ≤ range.endNs) : request.bounds.Cover instants horizonNs := by
  intro at' hat t ht
  obtain ⟨hstart, hend⟩ := hinstants at' hat
  unfold inWindow at ht
  rw [Bool.and_eq_true, decide_eq_true_eq, decide_eq_true_eq] at ht
  rw [(leafFetch_ok h).2, FetchBounds.contains, Bool.and_eq_true, decide_eq_true_eq, decide_eq_true_eq]
  exact ⟨(saturatingSub_mono hstart _).trans ht.1.le, ht.2.trans hend⟩

/-- A rate has a window, and no instant at which the window is empty. -/
def RateDefined (range : EvalRange) : PromExpr → Prop
  | .rate _ windowNs => windowNs ≠ 0 ∧ minInstant < range.startNs
  | .aggregate _ _ input => RateDefined range input
  | _ => True

/-- An expression has the same values over the samples inside the bounds. -/
theorem evalPromAt_inside {expr : PromExpr} {depth : ℕ}
    (h : collectFetches regex range limits depth expr = .ok [request])
    (hinstants : ∀ t ∈ instants, range.startNs ≤ t ∧ t ≤ range.endNs) (series : List PromSeries)
    (histograms : List PromHistogramSeries) :
    evalPromAt regex arith series histograms instants range.lookbackNs limits depth expr =
      evalPromAt regex arith (series.map (PromSeries.inside request.bounds))
        (histograms.map (PromHistogramSeries.inside request.bounds)) instants range.lookbackNs limits depth
        expr := by
  induction expr generalizing depth with
  | selector matchers =>
    unfold collectFetches at h
    unfold evalPromAt
    split at h
    · exact absurd h (by simp)
    · rename_i hdepth
      have hcover := cover_of_leafFetch h hinstants
      rw [if_neg hdepth, if_neg hdepth]
      dsimp only
      congr 1
      apply flatMapM_congr
      intro at' hat
      rw [selectInstant_inside hcover hat]
  | rate matchers windowNs =>
    unfold collectFetches at h
    unfold evalPromAt
    split at h
    · exact absurd h (by simp)
    · rename_i hdepth
      have hcover := cover_of_leafFetch h hinstants
      rw [if_neg hdepth, if_neg hdepth]
      dsimp only
      congr 1
      apply flatMapM_congr
      intro at' hat
      exact flatMapM_map fun item _ => rateAt_inside hcover hat item
  | histogramQuantile phi matchers windowNs grouping =>
    unfold collectFetches at h
    unfold evalPromAt evalHistogramQuantiles
    split at h
    · exact absurd h (by simp)
    · rename_i hdepth
      have hcover := cover_of_leafFetch h hinstants
      rw [if_neg hdepth, if_neg hdepth]
      dsimp only
      congr 2
      apply flatMapM_congr
      intro at' hat
      rw [flatMapM_map fun histogram _ => histogramRates_inside hcover hat histogram]
  | aggregate op grouping input ih =>
    unfold collectFetches at h
    unfold evalPromAt
    split at h
    · exact absurd h (by simp)
    · rename_i hdepth
      rw [if_neg hdepth, if_neg hdepth]
      dsimp only
      rw [ih h]

/-- It has the same values without the series that have no sample. -/
theorem evalPromAt_nonempty {expr : PromExpr} {depth : ℕ}
    (h : collectFetches regex range limits depth expr = .ok [request])
    (hinstants : ∀ t ∈ instants, range.startNs ≤ t ∧ t ≤ range.endNs) (hrate : RateDefined range expr)
    (series : List PromSeries) (histograms : List PromHistogramSeries) :
    evalPromAt regex arith (series.filter fun s => s.samples ≠ [])
        (histograms.filter fun s => s.points ≠ []) instants range.lookbackNs limits depth expr =
      evalPromAt regex arith series histograms instants range.lookbackNs limits depth expr := by
  induction expr generalizing depth with
  | selector matchers =>
    unfold collectFetches at h
    unfold evalPromAt
    split at h
    · exact absurd h (by simp)
    · rename_i hdepth
      rw [if_neg hdepth, if_neg hdepth]
      dsimp only
      congr 1
      apply flatMapM_congr
      intro at' _
      rw [selectInstant_nonempty (leafFetch_ok h).1]
  | rate matchers windowNs =>
    unfold collectFetches at h
    unfold evalPromAt
    split at h
    · exact absurd h (by simp)
    · rename_i hdepth
      rw [if_neg hdepth, if_neg hdepth]
      dsimp only
      congr 1
      apply flatMapM_congr
      intro at' hat
      apply flatMapM_filter
      intro item _ hempty
      apply rateAt_empty (leafFetch_ok h).1 hrate.1 (hrate.2.trans_le (hinstants at' hat).1)
      simpa using hempty
  | histogramQuantile phi matchers windowNs grouping =>
    unfold collectFetches at h
    unfold evalPromAt evalHistogramQuantiles
    split at h
    · exact absurd h (by simp)
    · rename_i hdepth
      rw [if_neg hdepth, if_neg hdepth]
      dsimp only
      congr 2
      apply flatMapM_congr
      intro at' _
      rw [flatMapM_filter]
      intro histogram _ hempty
      apply histogramRates_empty (leafFetch_ok h).1
      simpa using hempty
  | aggregate op grouping input ih =>
    unfold collectFetches at h
    unfold evalPromAt
    split at h
    · exact absurd h (by simp)
    · rename_i hdepth
      rw [if_neg hdepth, if_neg hdepth]
      dsimp only
      rw [ih h hrate]

/-- PromQL over what is inside the bounds. Series without a sample inside may be left out, where a rate
is defined. -/
theorem evalPromReference_inside {expr : PromExpr} {requests : List PromFetchRequest}
    (hplan : planPromFetch regex range limits expr = .ok requests) (hrequest : request ∈ requests)
    (series : List PromSeries) (histograms : List PromHistogramSeries) :
    evalPromReference regex arith expr (series.map (PromSeries.inside request.bounds))
        (histograms.map (PromHistogramSeries.inside request.bounds)) range limits =
        evalPromReference regex arith expr series histograms range limits ∧
      (RateDefined range expr →
        evalPromReference regex arith expr
            ((series.map (PromSeries.inside request.bounds)).filter fun s => s.samples ≠ [])
            ((histograms.map (PromHistogramSeries.inside request.bounds)).filter fun s => s.points ≠ [])
            range limits =
          evalPromReference regex arith expr series histograms range limits) := by
  obtain ⟨request', hfetch, rfl⟩ := planPromFetch_single hplan
  rw [List.mem_singleton.mp hrequest]
  unfold evalPromReference
  rcases hinstants : range.instants limits with e | instants
  · exact ⟨rfl, fun _ => rfl⟩
  · have hin := mem_instants hinstants
    refine ⟨(evalPromAt_inside hfetch hin series histograms).symm, ?_⟩
    intro hrate
    apply (evalPromAt_nonempty hfetch hin hrate _ _).trans
    exact (evalPromAt_inside hfetch hin series histograms).symm

end

/-! ## Log entries -/

section

variable {regex : Text → Option (Text → Bool)} {table : CharTable} {arith : Arith} {range : EvalRange}
  {limits : EvalLimits} {expr : LogRangeExpr}

/-- The windows of the instants are in the planned bounds. -/
theorem cover_of_planLogFetch {request : LogFetchRequest} (h : planLogFetch regex expr range limits = .ok request)
    {t : ℤ} (hat : range.startNs ≤ at' ∧ at' ≤ range.endNs)
    (ht : inWindow (saturatingSub (saturatingSub at' expr.offsetNs) expr.windowNs)
      (saturatingSub at' expr.offsetNs) t = true) :
    request.bounds.contains t = true := by
  unfold planLogFetch at h
  split at h
  · exact absurd h (by simp)
  · obtain ⟨_, _, h⟩ := bind_eq_ok.mp h
    obtain ⟨_, _, h⟩ := bind_eq_ok.mp h
    obtain ⟨bounds, hbounds, h⟩ := bind_eq_ok.mp h
    unfold FetchBounds.new at hbounds
    split at hbounds
    · exact absurd hbounds (by simp)
    · unfold inWindow at ht
      rw [Bool.and_eq_true, decide_eq_true_eq, decide_eq_true_eq] at ht
      rw [← Except.ok.inj h, ← Except.ok.inj hbounds, FetchBounds.contains, Bool.and_eq_true,
        decide_eq_true_eq, decide_eq_true_eq]
      refine ⟨(saturatingSub_mono (saturatingSub_mono hat.1 _) _).trans ht.1.le, ?_⟩
      exact ht.2.trans (saturatingSub_mono hat.2 _)

/-- The entries inside the bounds are enough to count those of a window. -/
theorem countedAt_inside {bounds : FetchBounds}
    (h : ∀ t, inWindow (saturatingSub (saturatingSub at' expr.offsetNs) expr.windowNs)
      (saturatingSub at' expr.offsetNs) t = true → bounds.contains t = true)
    (entries : List LogEntry) :
    countedAt regex table expr at' (entries.filter fun e => bounds.contains e.timestampNs) =
      countedAt regex table expr at' entries := by
  apply flatMapM_filter
  intro entry _ hout
  have hwindow : ¬ inWindow (saturatingSub (saturatingSub at' expr.offsetNs) expr.windowNs)
      (saturatingSub at' expr.offsetNs) entry.timestampNs = true := by
    intro hin
    rw [h _ hin] at hout
    exact absurd hout (by simp)
  rw [if_neg hwindow]
  rfl

/-- They are enough at every instant. -/
theorem pushInstants_inside {bounds : FetchBounds} {instants : List ℤ}
    (h : ∀ at' ∈ instants, ∀ t, inWindow (saturatingSub (saturatingSub at' expr.offsetNs) expr.windowNs)
      (saturatingSub at' expr.offsetNs) t = true → bounds.contains t = true) (entries : List LogEntry)
    (pushed : List (LabelSet × FloatSample)) :
    pushInstants regex table arith expr limits (entries.filter fun e => bounds.contains e.timestampNs)
        instants pushed =
      pushInstants regex table arith expr limits entries instants pushed := by
  induction instants generalizing pushed with
  | nil => rfl
  | cons at' instants ih =>
    rw [pushInstants, pushInstants, countedAt_inside (h at' List.mem_cons_self)]
    congr 1
    funext counted
    congr 1
    funext pushed
    exact ih (fun b hb => h b (List.mem_cons_of_mem _ hb)) pushed

/-- LogQL over the entries inside the bounds, where all entries are within the limit. -/
theorem evalLogRangeReference_inside {request : LogFetchRequest}
    (hplan : planLogFetch regex expr range limits = .ok request) {entries : List LogEntry}
    (hlimit : entries.length ≤ limits.maxSamples) :
    evalLogRangeReference regex table arith
        (entries.filter fun e => request.bounds.contains e.timestampNs) expr range limits =
      evalLogRangeReference regex table arith entries expr range limits := by
  unfold evalLogRangeReference
  rw [if_neg (not_lt.mpr hlimit), if_neg (not_lt.mpr ((List.length_filter_le _ _).trans hlimit))]
  split
  · rfl
  · rcases hinstants : range.instants limits with e | instants
    · rfl
    · have hin := mem_instants hinstants
      have hcover : ∀ at' ∈ instants, ∀ t,
          inWindow (saturatingSub (saturatingSub at' expr.offsetNs) expr.windowNs)
            (saturatingSub at' expr.offsetNs) t = true → request.bounds.contains t = true :=
        fun at' hat t ht => cover_of_planLogFetch hplan (hin at' hat) ht
      simp only [bind, Except.bind, pushInstants_inside hcover]

end

/-- What is inside the planned bounds is sufficient: for PromQL, where series without a sample inside may
be left out if a rate is defined; and for LogQL, if all entries are within the limit. -/
theorem bounded_sufficient (regex : Text → Option (Text → Bool)) (table : CharTable) (arith : Arith) :
    (∀ (expr : PromExpr) (range : EvalRange) (limits : EvalLimits) (requests : List PromFetchRequest),
        planPromFetch regex range limits expr = .ok requests → ∀ request ∈ requests,
        ∀ (series : List PromSeries) (histograms : List PromHistogramSeries),
          evalPromReference regex arith expr (series.map (PromSeries.inside request.bounds))
              (histograms.map (PromHistogramSeries.inside request.bounds)) range limits =
            evalPromReference regex arith expr series histograms range limits ∧
          (RateDefined range expr →
            evalPromReference regex arith expr
                ((series.map (PromSeries.inside request.bounds)).filter fun s => s.samples ≠ [])
                ((histograms.map (PromHistogramSeries.inside request.bounds)).filter fun s => s.points ≠ [])
                range limits =
              evalPromReference regex arith expr series histograms range limits)) ∧
      ∀ (expr : LogRangeExpr) (range : EvalRange) (limits : EvalLimits) (request : LogFetchRequest),
        planLogFetch regex expr range limits = .ok request → ∀ entries : List LogEntry,
          entries.length ≤ limits.maxSamples →
            evalLogRangeReference regex table arith
                (entries.filter fun e => request.bounds.contains e.timestampNs) expr range limits =
              evalLogRangeReference regex table arith entries expr range limits := by
  constructor
  · intro expr range limits requests hplan request hrequest series histograms
    exact evalPromReference_inside hplan hrequest series histograms
  · intro expr range limits request hplan entries hlimit
    exact evalLogRangeReference_inside hplan hlimit

/-- The count of the entries in the last five nanoseconds. -/
def lastFive : LogRangeExpr := ⟨.all, 5, 0, .countOverTime, none⟩

/-- Two series, of which one has its only sample outside the last five nanoseconds and the other its first one. -/
def longSeries : List PromSeries := [⟨cpuLabels, [⟨3, 0⟩, ⟨7, natAsF64 1⟩, ⟨9, natAsF64 4⟩]⟩, ⟨[], [⟨2, natAsF64 1⟩]⟩]

/-- The rate over two series is that over the part of one that is inside, and the count over two entries is that over
the one inside. -/
theorem bounded_sufficient_lastFive :
    evalPromReference (fun _ => none) noArith (.rate [] 5) [⟨cpuLabels, [⟨7, natAsF64 1⟩, ⟨9, natAsF64 4⟩]⟩] [] atTen
          EvalLimits.default =
        evalPromReference (fun _ => none) noArith (.rate [] 5) longSeries [] atTen EvalLimits.default ∧
      evalLogRangeReference (fun _ => none) ⟨fun _ => false, fun c => [c]⟩ noArith
          ([⟨3, [], []⟩, ⟨9, [], []⟩].filter fun e => FetchBounds.contains ⟨5, 10⟩ e.timestampNs) lastFive atTen
          EvalLimits.default =
        evalLogRangeReference (fun _ => none) ⟨fun _ => false, fun c => [c]⟩ noArith
          [⟨3, [], []⟩, ⟨9, [], []⟩] lastFive atTen EvalLimits.default := by
  obtain ⟨hprom, hlog⟩ := bounded_sufficient (fun _ => none) ⟨fun _ => false, fun c => [c]⟩ noArith
  have hplan : planPromFetch (fun _ => none) atTen EvalLimits.default (.rate [] 5) =
      .ok [⟨⟨5, 10⟩, .cumulativeCounterRate, [], 10000, 1000000⟩] := rfl
  have hinside := (hprom (.rate [] 5) atTen EvalLimits.default _ hplan _ (List.mem_singleton_self _) longSeries []).2
    ⟨by decide, by decide⟩
  exact ⟨hinside, hlog lastFive atTen EvalLimits.default ⟨⟨5, 10⟩, .all, 1000000⟩ rfl _ (by decide)⟩

/-- The limits with one sample. -/
def oneSample : EvalLimits := { EvalLimits.default with maxEvaluationPoints := 10, maxSamples := 1 }

/-- Two entries, of which one is inside the bounds, exceed the limit that the one does not. -/
theorem outside_entry_exceeds :
    evalLogRangeReference (fun _ => none) ⟨fun _ => false, fun c => [c]⟩ noArith [⟨3, [], []⟩, ⟨9, [], []⟩]
        lastFive atTen oneSample = .error (.limitExceeded "log samples".toList) ∧
      (planLogFetch (fun _ => none) lastFive atTen oneSample).map LogFetchRequest.bounds = .ok ⟨5, 10⟩ ∧
      evalLogRangeReference (fun _ => none) ⟨fun _ => false, fun c => [c]⟩ noArith
        ([⟨3, [], []⟩, ⟨9, [], []⟩].filter fun e => FetchBounds.contains ⟨5, 10⟩ e.timestampNs) lastFive atTen
        oneSample = .ok [⟨[], [⟨10, natAsF64 1⟩]⟩] := by
  decide +kernel

end Imbh.Lgtm
