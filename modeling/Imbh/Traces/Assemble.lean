import Imbh.Traces.Search

/-!
# What the callers report of a trace

`get`, `get_many` and `search` fetch the spans of a trace in an order of their own, and assemble them.

* `reported_iff` — the three report the same and the exact duration, if and only if the ends fit into an
  `i64` and the spans that may be taken for the root have one service and name.
-/

namespace Imbh.Traces

open Lib Imbh.Core List Option

variable {reader : JsonReader} {s : StoredSpan reader} {spans : List (StoredSpan reader)}

/-! ## The callers -/

/-- What is reported of a trace. -/
structure TraceReport where
  rootService : Option Text
  rootName : Option Text
  startTime : ℤ
  durationNs : ℕ
  deriving DecidableEq

/-- Source: `traces.rs` `assemble_trace` -/
def StoredTrace.report (t : StoredTrace reader) : TraceReport where
  rootService := t.root.bind StoredSpan.service
  rootName := t.root.map StoredSpan.name
  startTime := t.startTime
  durationNs := t.durationNs

/-- The subtraction in `assemble_trace` overflows: a panic, or a wrong duration where overflows are not checked. -/
def StoredTrace.Overflows (t : StoredTrace reader) : Prop :=
  ¬(minInstant ≤ t.stopTime - t.startTime ∧ t.stopTime - t.startTime ≤ maxInstant)

def TraceSummary.report (x : TraceSummary) : TraceReport where
  rootService := x.rootService
  rootName := x.rootName
  startTime := x.startTime
  durationNs := x.durationNs

/-- The trace of some rows, unless there are none. -/
def assembled (id : TraceId) : List (StoredSpan reader) → Option (StoredTrace reader)
  | [] => none
  | s :: rows => some ⟨id, s :: rows⟩

/-- A result of `get`, whose statement sorts. Source: `traces.rs` `TracesApi::get` -/
def GetResult (spans : List (StoredSpan reader)) (id : TraceId) (out : Option (StoredTrace reader)) : Prop :=
  ∃ rows, rows.Perm (spansOf spans id) ∧ rows.Pairwise (fun a b => a.startTime ≤ b.startTime) ∧
    out = assembled id rows

/-- The rows of the grouped scan. Source: `traces.rs` `spans_of_traces_sql_since` -/
def IsFetchedSince (spans : List (StoredSpan reader)) (tids : List TraceId) (notBefore : Option ℤ)
    (rows : List (StoredSpan reader)) : Prop :=
  rows.Perm (spans.filter fun s => decide (s.traceId ∈ tids) && notBefore.all fun t => decide (t ≤ s.startTime))

/-- A result of `get_many`, a map. Source: `traces.rs` `TracesApi::get_many` -/
def GetManyResult (spans : List (StoredSpan reader)) (tids : List TraceId) (notBefore : Option ℤ)
    (out : TraceId → Option (StoredTrace reader)) : Prop :=
  if tids = [] then out = fun _ => none
  else ∃ rows, IsFetchedSince spans tids notBefore rows ∧
    out = fun id => assembled id ((spansOf rows id).insertionSort fun a b => a.startTime ≤ b.startTime)

/-! ## What they are to report -/

/-- A column of instants and one of durations hold no other values. -/
def StoredSpan.InRange (s : StoredSpan reader) : Prop :=
  minInstant ≤ s.startTime ∧ s.startTime ≤ maxInstant ∧ s.durationNs < 2 ^ 64

/-- The end of a span, as an integer. -/
def StoredSpan.stopTime (s : StoredSpan reader) : ℤ := s.startTime + s.durationNs

/-- From the least start to the greatest end, at most what a duration can be. -/
def exactDuration (l : List (StoredSpan reader)) : ℕ :=
  min (2 ^ 64 - 1)
    ((l.map StoredSpan.stopTime).max?.getD 0 - (l.map StoredSpan.startTime).min?.getD 0).toNat

/-- All callers report the same of the trace, whatever the order in which its spans are fetched; it starts
at the least start and has the exact duration, and nothing overflows. -/
def Reported (spans : List (StoredSpan reader)) (id : TraceId) : Prop :=
  ∃ r : TraceReport,
    (∀ out, GetResult spans id out → out.map StoredTrace.report = some r) ∧
    (∀ tids notBefore out, id ∈ tids →
      (∀ t, notBefore = some t → ∀ s ∈ spansOf spans id, t ≤ s.startTime) →
      GetManyResult spans tids notBefore out → (out id).map StoredTrace.report = some r) ∧
    (∀ engine promoted q out, SearchResult engine promoted q spans out →
      ∀ summary ∈ out, summary.traceId = id → summary.report = r) ∧
    (∀ rows, rows.Perm (spansOf spans id) → ¬(StoredTrace.mk id rows).Overflows) ∧
    r.startTime = ((spansOf spans id).map StoredSpan.startTime).min?.getD 0 ∧
    r.durationNs = exactDuration (spansOf spans id)

/-- No span ends after the last instant, nor further from the start of any span than an `i64` can tell. -/
def EndsFit (l : List (StoredSpan reader)) : Prop :=
  ∀ s ∈ l, s.stopTime ≤ maxInstant ∧ ∀ s' ∈ l, s.stopTime - s'.startTime ≤ maxInstant

/-- The spans of which the order says which is the root. -/
def rootCandidates (l : List (StoredSpan reader)) : List (StoredSpan reader) :=
  if l.any fun s => s.parentSpanId.isNone then l.filter fun s => s.parentSpanId.isNone else l

def RootsAgree (l : List (StoredSpan reader)) : Prop :=
  ∀ a ∈ rootCandidates l, ∀ b ∈ rootCandidates l, a.service = b.service ∧ a.name = b.name

/-! ## Starts and ends -/

theorem max?_congr {l l' : List ℤ} (h : ∀ a, a ∈ l ↔ a ∈ l') : l.max? = l'.max? := by
  rcases hmax : l'.max? with _ | m
  · rw [max?_eq_none_iff] at hmax ⊢
    rw [eq_nil_iff_forall_not_mem]
    intro a ha
    rw [h, hmax] at ha
    exact not_mem_nil ha
  · rw [max?_eq_some_iff] at hmax ⊢
    exact ⟨(h m).mpr hmax.1, fun b hb => hmax.2 b ((h b).mp hb)⟩

/-- The least start is that of a span. -/
theorem exists_min {l : List (StoredSpan reader)} (hne : l ≠ []) :
    (∃ s ∈ l, s.startTime = (l.map StoredSpan.startTime).min?.getD 0) ∧
      ∀ s ∈ l, (l.map StoredSpan.startTime).min?.getD 0 ≤ s.startTime := by
  rcases hmin : (l.map StoredSpan.startTime).min? with _ | m
  · rw [min?_eq_none_iff, map_eq_nil_iff] at hmin
    exact absurd hmin hne
  · obtain ⟨hmem, hle⟩ := min?_eq_some_iff.mp hmin
    exact ⟨mem_map.mp hmem, fun s hs => hle _ (mem_map_of_mem hs)⟩

/-- The greatest of some ends is that of a span. -/
theorem exists_max {l : List (StoredSpan reader)} (hne : l ≠ []) (f : StoredSpan reader → ℤ) :
    (∃ s ∈ l, f s = (l.map f).max?.getD 0) ∧ ∀ s ∈ l, f s ≤ (l.map f).max?.getD 0 := by
  rcases hmax : (l.map f).max? with _ | m
  · rw [max?_eq_none_iff, map_eq_nil_iff] at hmax
    exact absurd hmax hne
  · obtain ⟨hmem, hle⟩ := max?_eq_some_iff.mp hmax
    exact ⟨mem_map.mp hmem, fun s hs => hle _ (mem_map_of_mem hs)⟩

/-- The end that `assemble_trace` computes. -/
def StoredSpan.computedStop (s : StoredSpan reader) : ℤ := saturatingAdd s.startTime (wrapI64 s.durationNs)

theorem computedStop_le (s : StoredSpan reader) : s.computedStop ≤ maxInstant := by
  unfold StoredSpan.computedStop saturatingAdd clampI64 minInstant maxInstant
  omega

/-- An end that fits is computed exactly. -/
theorem computedStop_eq (h : s.InRange) (hstop : s.stopTime ≤ maxInstant)
    (hduration : (s.durationNs : ℤ) ≤ maxInstant) : s.computedStop = s.stopTime := by
  obtain ⟨hmin, -, -⟩ := h
  unfold StoredSpan.stopTime maxInstant at *
  unfold StoredSpan.computedStop saturatingAdd clampI64 wrapI64 minInstant maxInstant at *
  omega

/-- The duration is exact and computed without an overflow, if and only if the ends fit. -/
theorem durationNs_eq_iff {id : TraceId} {l : List (StoredSpan reader)} (hne : l ≠ [])
    (hrange : ∀ s ∈ l, s.InRange) :
    (¬(StoredTrace.mk id l).Overflows ∧ (StoredTrace.mk id l).durationNs = exactDuration l) ↔ EndsFit l := by
  obtain ⟨⟨first, hfirst, hstart⟩, hleast⟩ := exists_min hne
  obtain ⟨⟨final, hfinal, hstop⟩, hgreatest⟩ := exists_max hne StoredSpan.stopTime
  obtain ⟨⟨last, hlast, hend⟩, hupper⟩ := exists_max hne StoredSpan.computedStop
  have hfirstRange := hrange first hfirst
  have hfirstStop := hgreatest first hfirst
  rw [StoredTrace.durationNs, StoredTrace.Overflows, not_not, exactDuration]
  change (minInstant ≤ (l.map StoredSpan.computedStop).max?.getD 0 - (l.map StoredSpan.startTime).min?.getD 0 ∧
    (l.map StoredSpan.computedStop).max?.getD 0 - (l.map StoredSpan.startTime).min?.getD 0 ≤ maxInstant) ∧
    (wrapI64 ((l.map StoredSpan.computedStop).max?.getD 0 - (l.map StoredSpan.startTime).min?.getD 0)).toNat = _ ↔ _
  generalize (l.map StoredSpan.startTime).min?.getD 0 = start at *
  generalize (l.map StoredSpan.stopTime).max?.getD 0 = stop at *
  generalize (l.map StoredSpan.computedStop).max?.getD 0 = computed at *
  have hcomputed : computed ≤ maxInstant := hend ▸ computedStop_le last
  constructor
  · rintro ⟨⟨hlow, hhigh⟩, hexact⟩
    have hwrap : wrapI64 (computed - start) = computed - start := by
      unfold wrapI64 minInstant maxInstant at *
      omega
    rw [hwrap] at hexact
    have hspan : stop - start ≤ maxInstant := by
      unfold maxInstant at *
      omega
    have hlate : stop ≤ maxInstant := by
      unfold StoredSpan.InRange minInstant StoredSpan.stopTime maxInstant at *
      omega
    intro s hs
    have hsStop := hgreatest s hs
    refine ⟨hsStop.trans hlate, fun s' hs' => ?_⟩
    have hsStart := hleast s' hs'
    omega
  · intro hfit
    have heq : ∀ s ∈ l, s.computedStop = s.stopTime := by
      intro s hs
      refine computedStop_eq (hrange s hs) (hfit s hs).1 ?_
      have := (hfit s hs).2 s hs
      unfold StoredSpan.stopTime at this
      omega
    have hsame : computed = stop := by
      apply le_antisymm
      · rw [← hend, heq last hlast]
        exact hgreatest last hlast
      · rw [← hstop, ← heq final hfinal]
        exact hupper final hfinal
    have hspan : stop - start ≤ maxInstant := by
      rw [← hstop, ← hstart]
      exact (hfit final hfinal).2 first hfirst
    unfold wrapI64 StoredSpan.stopTime minInstant maxInstant at *
    rw [hsame]
    refine ⟨⟨?_, hspan⟩, ?_⟩
    · omega
    · omega

/-- The start, the duration and whether it overflows do not depend on the order of the spans. -/
theorem report_perm {id : TraceId} {l l' : List (StoredSpan reader)} (h : l.Perm l') :
    (StoredTrace.mk id l).startTime = (StoredTrace.mk id l').startTime ∧
      (StoredTrace.mk id l).durationNs = (StoredTrace.mk id l').durationNs ∧
      ((StoredTrace.mk id l).Overflows ↔ (StoredTrace.mk id l').Overflows) := by
  have hstart : (StoredTrace.mk id l).startTime = (StoredTrace.mk id l').startTime := by
    unfold StoredTrace.startTime
    rw [min?_congr fun a => (h.map StoredSpan.startTime).mem_iff]
  have hstop : (StoredTrace.mk id l).stopTime = (StoredTrace.mk id l').stopTime := by
    unfold StoredTrace.stopTime
    rw [max?_congr fun a => (h.map fun s => saturatingAdd s.startTime (wrapI64 s.durationNs)).mem_iff]
  refine ⟨hstart, ?_, ?_⟩
  · rw [StoredTrace.durationNs, StoredTrace.durationNs, hstart, hstop]
  · rw [StoredTrace.Overflows, StoredTrace.Overflows, hstart, hstop]

/-! ## The root -/

theorem mem_rootCandidates {l : List (StoredSpan reader)} :
    s ∈ rootCandidates l ↔ s ∈ l ∧ (s.parentSpanId.isNone = true ∨ ∀ s' ∈ l, s'.parentSpanId.isNone = false) := by
  unfold rootCandidates
  split
  · rename_i hany
    obtain ⟨a, ha, hnone⟩ := any_eq_true.mp hany
    rw [mem_filter]
    refine and_congr_right fun _ => ⟨.inl, fun h => h.elim id fun hall => ?_⟩
    exact absurd hnone (by simp [hall a ha])
  · rename_i hnot
    have hall : ∀ s' ∈ l, s'.parentSpanId.isNone = false := fun s' hs' =>
      eq_false_of_ne_true fun hnone => hnot (any_eq_true.mpr ⟨s', hs', hnone⟩)
    exact ⟨fun hs => ⟨hs, .inr hall⟩, fun h => h.1⟩

theorem rootCandidates_perm {l l' : List (StoredSpan reader)} (h : l.Perm l') :
    s ∈ rootCandidates l ↔ s ∈ rootCandidates l' := by
  rw [mem_rootCandidates, mem_rootCandidates, h.mem_iff]
  simp only [h.mem_iff]

/-- The root is one of the candidates. -/
theorem root_mem {id : TraceId} {l : List (StoredSpan reader)} (hne : l ≠ []) :
    ∃ s ∈ rootCandidates l, (StoredTrace.mk id l).root = some s := by
  unfold StoredTrace.root
  rcases hfind : l.find? fun s => s.parentSpanId.isNone with _ | s
  · obtain ⟨first, rest, rfl⟩ := exists_cons_of_ne_nil hne
    refine ⟨first, mem_rootCandidates.mpr ⟨mem_cons_self, .inr fun s' hs' => ?_⟩, ?_⟩
    · exact eq_false_of_ne_true (find?_eq_none.mp hfind s' hs')
    · simp only [hfind, none_or, head?_cons]
  · refine ⟨s, mem_rootCandidates.mpr ⟨mem_of_find?_eq_some hfind, .inl ?_⟩, ?_⟩
    · exact find?_some (p := fun s : StoredSpan reader => s.parentSpanId.isNone) hfind
    · simp only [hfind, some_or]

/-- A candidate that comes first is the root. -/
theorem root_cons {id : TraceId} {l : List (StoredSpan reader)} (h : s ∈ rootCandidates (s :: l)) :
    (StoredTrace.mk id (s :: l)).root = some s := by
  unfold StoredTrace.root
  dsimp only
  rcases (mem_rootCandidates.mp h).2 with hnone | hall
  · rw [find?_cons_of_pos (p := fun s : StoredSpan reader => s.parentSpanId.isNone) hnone, some_or]
  · rw [find?_eq_none.mpr fun s' hs' => by simp [hall s' hs'], none_or, head?_cons]

/-- Where the candidates agree, the order does not matter. -/
theorem report_eq {id : TraceId} {l l' : List (StoredSpan reader)} (h : l.Perm l') (hne : l ≠ [])
    (hroots : RootsAgree l) : (StoredTrace.mk id l).report = (StoredTrace.mk id l').report := by
  obtain ⟨hstart, hduration, -⟩ := @report_perm _ id _ _ h
  have hne' : l' ≠ [] := fun hnil => hne (by rwa [hnil, perm_nil] at h)
  obtain ⟨a, ha, hroot⟩ := @root_mem _ id _ hne
  obtain ⟨b, hb, hroot'⟩ := @root_mem _ id _ hne'
  obtain ⟨hservice, hname⟩ := hroots a ha b ((rootCandidates_perm h).mpr hb)
  unfold StoredTrace.report
  rw [hroot, hroot', hstart, hduration, bind_some, bind_some, hservice, map_some,
    map_some, hname]

/-! ## The callers agree -/

theorem assembled_of_ne_nil {id : TraceId} {rows : List (StoredSpan reader)} (h : rows ≠ []) :
    assembled id rows = some ⟨id, rows⟩ := by
  obtain ⟨s, rest, rfl⟩ := exists_cons_of_ne_nil h
  rfl

/-- A scan that is bounded by no later instant than the start fetches all spans of a trace. -/
theorem spansOf_fetchedSince {rows : List (StoredSpan reader)} {tids : List TraceId} {notBefore : Option ℤ}
    (h : IsFetchedSince spans tids notBefore rows) {id : TraceId} (hid : id ∈ tids)
    (hbound : ∀ t, notBefore = some t → ∀ s ∈ spansOf spans id, t ≤ s.startTime) :
    (spansOf rows id).Perm (spansOf spans id) := by
  have hperm := h.filter fun s => decide (s.traceId = id)
  rw [List.filter_filter] at hperm
  apply hperm.trans
  apply List.Perm.of_eq
  apply List.filter_congr
  intro s hs
  by_cases hsid : s.traceId = id
  · rcases notBefore with _ | t
    · simp [hsid, hid]
    · have := hbound t rfl s (mem_spansOf.mpr ⟨hs, hsid⟩)
      simp [hsid, hid, this]
  · simp [hsid]

/-- What a search says of a trace, it says of the spans that it fetched. -/
theorem report_of_search {engine : SqlEngine} {promoted : List Text} {q : TraceQuery} {out : List TraceSummary}
    (h : SearchResult engine promoted q spans out) {summary : TraceSummary} (hmem : summary ∈ out) :
    ∃ rows, rows.Perm (spansOf spans summary.traceId) ∧
      summary.report = (StoredTrace.mk summary.traceId rows).report := by
  obtain ⟨tids, rows, ⟨ranked, hranked, rfl⟩, hrows, rfl⟩ := h
  split at hmem
  · exact absurd hmem not_mem_nil
  · rw [collectSummaries_fetched hranked hrows] at hmem
    obtain ⟨id, hid, rfl⟩ := mem_map.mp hmem
    exact ⟨spansOf rows id, spansOf_perm hrows (mem_of_mem_filter (mem_of_mem_take hid)), rfl⟩

/-- A query without conditions. -/
def everyTrace (limit : ℕ) : TraceQuery := { TraceQuery.new with limit := limit }

/-- A search can fetch the spans of a trace in any order. -/
theorem exists_search {id : TraceId} {rows : List (StoredSpan reader)} (hne : rows ≠ [])
    (hrows : rows.Perm (spansOf spans id)) :
    ∃ out, SearchResult noEngine [] (everyTrace spans.length) spans out ∧
      ∃ summary ∈ out, summary.traceId = id ∧ summary.report = (StoredTrace.mk id rows).report := by
  have hmatches (s : StoredSpan reader) : (everyTrace spans.length).matchesSpan noEngine [] s = true := rfl
  have hstarts (t : ℤ) : (everyTrace spans.length).traceStartMatches t = true := rfl
  obtain ⟨ranked, hranked, -⟩ := exists_ranking_last (latest noEngine [] (everyTrace spans.length) spans)
    (fun _ => true) (candidateIds noEngine [] (everyTrace spans.length) spans)
  have hover := hranked.perm.trans candidateIds_perm
  have hlen : ranked.length ≤ spans.length := by
    rw [hover.length_eq]
    calc (overlapping noEngine [] (everyTrace spans.length) spans).length
        ≤ (spans.map StoredSpan.traceId).dedup.length := List.length_filter_le _ _
      _ ≤ (spans.map StoredSpan.traceId).length := (List.dedup_sublist _).length_le
      _ = spans.length := List.length_map _
  have htake : ranked.take (everyTrace spans.length).fetchLimit = ranked := List.take_of_length_le hlen
  have hid : id ∈ ranked := by
    obtain ⟨s, rest, rfl⟩ := List.exists_cons_of_ne_nil hne
    have hs := hrows.mem_iff.mp List.mem_cons_self
    obtain ⟨hspans, rfl⟩ := mem_spansOf.mp hs
    rw [hover.mem_iff, overlapping, List.mem_filter, List.mem_dedup, Bool.and_eq_true]
    refine ⟨List.mem_map_of_mem hspans, List.any_eq_true.mpr ⟨s, hspans, ?_⟩, List.any_eq_true.mpr ⟨s, hs, hstarts _⟩⟩
    rw [decide_eq_true rfl, hmatches]
    rfl
  -- the rows of the trace first, and after them those of the others
  let fetched := rows ++ (spans.filter fun s => decide (s.traceId ∈ ranked)).filter fun s => !decide (s.traceId = id)
  have hfetched : IsFetched spans ranked fetched := by
    unfold IsFetched fetched
    have hsplit := List.filter_append_perm (fun s => decide (s.traceId = id))
      (spans.filter fun s => decide (s.traceId ∈ ranked))
    refine List.Perm.trans (List.Perm.append_right _ ?_) hsplit
    apply hrows.trans
    rw [List.filter_filter]
    apply List.Perm.of_eq
    apply List.filter_congr
    intro s _
    by_cases hsid : s.traceId = id
    · simp [hsid, hid]
    · simp [hsid]
  have hspansOf : spansOf fetched id = rows := by
    unfold fetched spansOf
    rw [List.filter_append, List.filter_eq_self.mpr fun s hs => decide_eq_true (mem_spansOf.mp (hrows.mem_iff.mp hs)).2,
      List.filter_filter, List.filter_eq_nil_iff.mpr, List.append_nil]
    intro s _ hs
    rw [Bool.and_eq_true, Bool.not_eq_true', decide_eq_true_eq, decide_eq_false_iff_not] at hs
    exact hs.2 hs.1
  refine ⟨_, ⟨ranked, fetched, ⟨ranked, hranked, htake.symm⟩, hfetched, rfl⟩, ⟨summaryIn fetched id, ?_, rfl, ?_⟩⟩
  · rw [if_neg (List.ne_nil_of_mem hid)]
    have hcollected := @collectSummaries_fetched _ _ _ _ _ fetched _ hranked (htake.symm ▸ hfetched)
    rw [htake] at hcollected
    rw [hcollected, List.filter_eq_self.mpr fun _ _ => hstarts _, List.take_of_length_le (by exact hlen)]
    exact List.mem_map_of_mem hid
  · unfold summaryIn
    rw [hspansOf]
    rfl

/-- **The callers report one exact trace**, if and only if its ends fit and its possible roots agree. -/
theorem reported_iff {spans : List (StoredSpan reader)} {id : TraceId} (hne : spansOf spans id ≠ [])
    (hrange : ∀ s ∈ spansOf spans id, s.InRange) :
    Reported spans id ↔ EndsFit (spansOf spans id) ∧ RootsAgree (spansOf spans id) := by
  constructor
  · rintro ⟨r, hget, -, hsearch, hflows, -, hduration⟩
    constructor
    · refine (@durationNs_eq_iff _ id _ hne hrange).mp ⟨hflows _ (Perm.refl _), ?_⟩
      obtain ⟨out, hout, summary, hmem, hid, hreport⟩ := exists_search hne (Perm.refl (spansOf spans id))
      rw [← hduration, ← hsearch _ _ _ _ hout summary hmem hid, hreport]
      rfl
    · -- each candidate can come first
      have hroot (s : StoredSpan reader) (hs : s ∈ rootCandidates (spansOf spans id)) :
          r.rootService = s.service ∧ r.rootName = some s.name := by
        obtain ⟨before, after, hsplit⟩ := append_of_mem (mem_rootCandidates.mp hs).1
        have hrest : (s :: (before ++ after)).Perm (spansOf spans id) := hsplit ▸ perm_middle.symm
        obtain ⟨out, hout, summary, hmem, hid, hreport⟩ := exists_search (cons_ne_nil s _) hrest
        rw [← hsearch _ _ _ _ hout summary hmem hid, hreport, StoredTrace.report,
          root_cons ((rootCandidates_perm hrest).mpr hs)]
        exact ⟨rfl, rfl⟩
      intro a ha b hb
      obtain ⟨haService, haName⟩ := hroot a ha
      obtain ⟨hbService, hbName⟩ := hroot b hb
      exact ⟨haService.symm.trans hbService, some.inj (haName.symm.trans hbName)⟩
  · rintro ⟨hfit, hroots⟩
    obtain ⟨hflows, hduration⟩ := (@durationNs_eq_iff _ id _ hne hrange).mpr hfit
    have hsame {rows : List (StoredSpan reader)} (h : rows.Perm (spansOf spans id)) :
        (assembled id rows).map StoredTrace.report = some (StoredTrace.mk id (spansOf spans id)).report := by
      have hne' : rows ≠ [] := fun hnil => hne (by rwa [hnil, nil_perm] at h)
      rw [assembled_of_ne_nil hne', map_some, report_eq h.symm hne hroots]
    refine ⟨(StoredTrace.mk id (spansOf spans id)).report, ?_, ?_, ?_, ?_, rfl, hduration⟩
    · rintro out ⟨rows, hrows, -, rfl⟩
      exact hsame hrows
    · intro tids notBefore out hid hbound hout
      rw [GetManyResult, if_neg (ne_nil_of_mem hid)] at hout
      obtain ⟨rows, hrows, rfl⟩ := hout
      exact hsame ((perm_insertionSort _ _).trans (spansOf_fetchedSince hrows hid hbound))
    · rintro engine promoted q out hout summary hmem rfl
      obtain ⟨rows, hrows, hreport⟩ := report_of_search hout hmem
      rw [hreport, report_eq hrows.symm hne hroots]
    · intro rows hrows hover
      exact hflows ((report_perm hrows).2.2.mp hover)

/-! ### Two spans without a parent -/

/-- A child that ran from 5 to 6 after its parent. -/
def parentAndChild : List (StoredSpan noReader) :=
  [{ bareSpan 1 1 5 with parentSpanId := some [0] }, bareSpan 1 0 3]

theorem reported_parentAndChild : Reported parentAndChild [1] := by
  apply (@reported_iff _ parentAndChild [1] (cons_ne_nil _ _) ?_).mpr
  · constructor
    · unfold EndsFit StoredSpan.stopTime
      decide
    · unfold RootsAgree
      decide
  · unfold StoredSpan.InRange
    decide

/-- Two spans of one trace that are both without a parent. -/
def twoRoots : List (StoredSpan noReader) :=
  [{ bareSpan 1 0 3 with name := "first".toList }, { bareSpan 1 1 5 with name := "second".toList }]

/-- A search reports the root that is fetched first. -/
theorem roots_reported_apart : spansOf twoRoots [1] ≠ [] ∧ ¬Reported twoRoots [1] := by
  refine ⟨cons_ne_nil _ _, ?_⟩
  rintro ⟨r, -, -, hsearch, -, -, -⟩
  obtain ⟨_, hout, _, hmem, hid, hreport⟩ :=
    @exists_search _ twoRoots [1] twoRoots (cons_ne_nil _ _) (Perm.refl _)
  obtain ⟨_, hout', _, hmem', hid', hreport'⟩ :=
    @exists_search _ twoRoots [1] twoRoots.reverse (cons_ne_nil _ _)
      (reverse_perm _)
  have hsame := (hsearch _ _ _ _ hout _ hmem hid).trans (hsearch _ _ _ _ hout' _ hmem' hid').symm
  rw [hreport, hreport'] at hsame
  exact absurd (congrArg TraceReport.rootName hsame) (by decide)

end Imbh.Traces
