import Mathlib.Data.List.Dedup
import Imbh.Lib.Ranking
import Imbh.Traces.Query

/-!
# Trace search

A search ranks the traces by their most recent span in the window, takes the first ones, fetches all
their spans, and keeps the traces that began in the window. The window on single spans lets traces
pass that began before it, so more candidates are taken than are wanted. A result is any that the
statements allow: equal ranks may stand in any order, and so may the fetched spans.

* `search_exact_iff` — each result is the first of the qualifying traces, if and only if there is room
  among the candidates for the traces that only overlap the window.
-/

namespace Imbh.Traces

open Lib Imbh.Core List

/-- Source: `traces.rs` `TraceSummary` -/
structure TraceSummary where
  traceId : TraceId
  rootService : Option Text
  rootName : Option Text
  startTime : ℤ
  durationNs : ℕ
  spanCount : ℕ
  error : Bool

/-- Source: `traces.rs` `trace_start_prefilter`, and `trace_start_having` on an aggregate -/
def TraceQuery.traceStartPrefilter (q : TraceQuery) : List (ℤ → Bool) :=
  match q.traceStartRange with
  | none => []
  | some r =>
      (if r.start = minInstant then [] else [fun t => decide (r.start ≤ t)]) ++
        if r.stop = maxInstant then []
        else [fun t => if q.traceStartEndInclusive then decide (t ≤ r.stop) else decide (t < r.stop)]

/-- Source: `traces.rs` `trace_start_matches` -/
def TraceQuery.traceStartMatches (q : TraceQuery) (start : ℤ) : Bool :=
  match q.traceStartRange with
  | none => true
  | some r => r.admits q.traceStartEndInclusive start

/-- Source: `traces.rs` `TracesApi::search` -/
def TraceQuery.approximate (q : TraceQuery) : Bool := !q.traceStartPrefilter.isEmpty

/-- The number of candidates. Source: `traces.rs` `TracesApi::search` -/
def TraceQuery.fetchLimit (q : TraceQuery) : ℕ :=
  if q.approximate then min (2 ^ 64 - 1) (min (2 ^ 64 - 1) (q.limit * 2) + 16) else q.limit

/-- The spans of one trace. -/
def spansOf {reader : JsonReader} (spans : List (StoredSpan reader)) (id : TraceId) :
    List (StoredSpan reader) :=
  spans.filter fun s => s.traceId = id

section

variable {reader : JsonReader} (engine : SqlEngine) (promoted : List Text) (q : TraceQuery)
  (spans : List (StoredSpan reader))

/-! ## The statements -/

/-- The trace has a span that satisfies the conditions. -/
def hasMatch (id : TraceId) : Bool :=
  spans.any fun s => decide (s.traceId = id) && q.matchesSpan engine promoted s

/-- The `WHERE` of the ranking. Source: `traces.rs` `TracesApi::search` -/
def rankedSpans : List (StoredSpan reader) :=
  spans.filter fun s =>
    (if (q.spanConditions engine promoted : List (StoredSpan reader → Bool)) = [] then true
      else hasMatch engine promoted q spans s.traceId) &&
      q.traceStartPrefilter.all fun c => c s.startTime

/-- `max(start_time)` of a group. -/
def latest (id : TraceId) : ℤ :=
  ((spansOf (rankedSpans engine promoted q spans) id).map StoredSpan.startTime).max?.getD 0

/-- The groups of the ranking that satisfy the `HAVING`. -/
def candidateIds : List TraceId :=
  ((rankedSpans engine promoted q spans).map StoredSpan.traceId).dedup.filter fun id =>
    q.traceStartPrefilter.all fun c => c (StoredTrace.mk id (spansOf (rankedSpans engine promoted q spans)
      id)).startTime

/-- A result of the first statement. -/
def IsCandidateList (tids : List TraceId) : Prop :=
  ∃ ranked, IsRanking (latest engine promoted q spans) (candidateIds engine promoted q spans) ranked ∧
    tids = ranked.take q.fetchLimit

/-- A result of the second statement: all spans of the candidates. -/
def IsFetched (tids : List TraceId) (rows : List (StoredSpan reader)) : Prop :=
  rows.Perm (spans.filter fun s => s.traceId ∈ tids)

end

section

variable {reader : JsonReader}

/-- Source: `traces.rs` `TracesApi::search` -/
def summaryOf (t : StoredTrace reader) : TraceSummary where
  traceId := t.traceId
  rootService := t.root.bind StoredSpan.service
  rootName := t.root.map StoredSpan.name
  startTime := t.startTime
  durationNs := t.durationNs
  spanCount := t.spans.length
  error := t.spans.any fun s => s.statusCode = "ERROR".toList

/-- Source: `traces.rs` `TracesApi::search`, the last loop -/
def collectSummaries (q : TraceQuery) (rows : List (StoredSpan reader)) :
    List TraceId → List TraceSummary → List TraceSummary
  | [], out => out
  | tid :: tids, out =>
      if out.length = q.limit then out
      else
        match spansOf rows tid with
        | [] => collectSummaries q rows tids out
        | first :: rest =>
            let trace : StoredTrace reader := ⟨first.traceId, first :: rest⟩
            if q.approximate && !q.traceStartMatches trace.startTime then
              collectSummaries q rows tids out
            else collectSummaries q rows tids (out ++ [summaryOf trace])

/-- A result of a search. Source: `traces.rs` `TracesApi::search` -/
def SearchResult (engine : SqlEngine) (promoted : List Text) (q : TraceQuery)
    (spans : List (StoredSpan reader)) (out : List TraceSummary) : Prop :=
  ∃ tids rows, IsCandidateList engine promoted q spans tids ∧ IsFetched spans tids rows ∧
    out = if tids = [] then [] else collectSummaries q rows tids []

end

/-! ## What a search is for -/

section

variable {reader : JsonReader} (engine : SqlEngine) (promoted : List Text) (q : TraceQuery)
  (spans : List (StoredSpan reader))

/-- The earliest start of all spans of the trace. -/
def trueStart (id : TraceId) : ℤ := (StoredTrace.mk id (spansOf spans id)).startTime

/-- The most recent start of a span of the trace in the window. -/
def recency (id : TraceId) : ℤ :=
  (((spansOf spans id).filter fun s => q.traceStartMatches s.startTime).map
    StoredSpan.startTime).max?.getD 0

/-- The traces that have a span that satisfies the conditions and that began in the window. -/
def qualifying : List TraceId :=
  (spans.map StoredSpan.traceId).dedup.filter fun id =>
    hasMatch engine promoted q spans id && q.traceStartMatches (trueStart spans id)

/-- The traces that have a span that satisfies the conditions and a span in the window. -/
def overlapping : List TraceId :=
  (spans.map StoredSpan.traceId).dedup.filter fun id =>
    hasMatch engine promoted q spans id &&
      (spansOf spans id).any fun s => q.traceStartMatches s.startTime

/-- The first of the qualifying traces, the most recent ones first, with what is said of them. -/
structure Exact (out : List TraceSummary) : Prop where
  top : IsTop (recency q spans) q.limit (qualifying engine promoted q spans)
    (out.map TraceSummary.traceId)
  startTime : ∀ summary ∈ out, summary.startTime = trueStart spans summary.traceId
  spanCount : ∀ summary ∈ out, summary.spanCount = (spansOf spans summary.traceId).length

/-- There is room among the candidates for the traces that only overlap the window. -/
def HasRoom : Prop :=
  Room (recency q spans) (fun id => q.traceStartMatches (trueStart spans id)) q.limit q.fetchLimit
    (overlapping engine promoted q spans)

end

/-! ## The window -/

section

variable {reader : JsonReader} {engine : SqlEngine} {promoted : List Text} {q : TraceQuery}
  {spans rows : List (StoredSpan reader)} {id : TraceId}

theorem all_traceStartPrefilter (q : TraceQuery) (t : ℤ) :
    (q.traceStartPrefilter.all fun c => c t) = q.traceStartMatches t := by
  unfold TraceQuery.traceStartPrefilter TraceQuery.traceStartMatches
  rcases q.traceStartRange with _ | r
  · rfl
  · unfold TimeRange.admits
    by_cases hstart : r.start = minInstant <;> by_cases hstop : r.stop = maxInstant <;>
      rcases q.traceStartEndInclusive <;> simp [hstart, hstop]

/-- Without a condition on single spans, each start is in the window. -/
theorem traceStartMatches_of_not_approximate (h : q.approximate = false) (t : ℤ) :
    q.traceStartMatches t = true := by
  have hnil : q.traceStartPrefilter = [] := by
    unfold TraceQuery.approximate at h
    rw [Bool.not_eq_false'] at h
    exact isEmpty_iff.mp h
  rw [← all_traceStartPrefilter, hnil]
  rfl

theorem mem_spansOf {s : StoredSpan reader} : s ∈ spansOf spans id ↔ s ∈ spans ∧ s.traceId = id := by
  rw [spansOf, mem_filter, decide_eq_true_eq]

theorem min?_congr {l l' : List ℤ} (h : ∀ a, a ∈ l ↔ a ∈ l') : l.min? = l'.min? := by
  rcases hmin : l'.min? with _ | m
  · rw [min?_eq_none_iff] at hmin ⊢
    rw [eq_nil_iff_forall_not_mem]
    intro a ha
    rw [h, hmin] at ha
    exact not_mem_nil ha
  · rw [min?_eq_some_iff] at hmin ⊢
    exact ⟨(h m).mpr hmin.1, fun b hb => hmin.2 b ((h b).mp hb)⟩

/-- The start of a trace is that of one of its spans. -/
theorem exists_trueStart {s : StoredSpan reader} (hs : s ∈ spans) :
    ∃ m ∈ spansOf spans s.traceId, trueStart spans s.traceId = m.startTime := by
  unfold trueStart StoredTrace.startTime
  dsimp only
  rcases hmin : ((spansOf spans s.traceId).map StoredSpan.startTime).min? with _ | m
  · rw [min?_eq_none_iff, map_eq_nil_iff] at hmin
    have hmem : s ∈ spansOf spans s.traceId := mem_spansOf.mpr ⟨hs, rfl⟩
    rw [hmin] at hmem
    exact absurd hmem not_mem_nil
  · obtain ⟨first, hfirst, hstart⟩ := mem_map.mp (min?_mem hmin)
    exact ⟨first, hfirst, hstart.symm⟩

/-! ## The candidates -/

theorem rankedSpans_eq : rankedSpans engine promoted q spans =
    spans.filter fun s =>
      hasMatch engine promoted q spans s.traceId && q.traceStartMatches s.startTime := by
  unfold rankedSpans
  apply filter_congr
  intro s hs
  rw [all_traceStartPrefilter]
  congr 1
  split
  · rename_i hnil
    symm
    apply any_eq_true.mpr
    refine ⟨s, hs, ?_⟩
    rw [TraceQuery.matchesSpan, hnil, decide_eq_true rfl]
    rfl
  · rfl

/-- Of a trace that has a matching span, the spans in the window are ranked. -/
theorem spansOf_rankedSpans (h : hasMatch engine promoted q spans id = true) :
    spansOf (rankedSpans engine promoted q spans) id =
      (spansOf spans id).filter fun s => q.traceStartMatches s.startTime := by
  unfold spansOf
  rw [rankedSpans_eq, filter_filter, filter_filter]
  apply filter_congr
  intro s _
  by_cases hid : s.traceId = id
  · rw [hid, h, decide_eq_true rfl, Bool.true_and, Bool.true_and, Bool.and_true]
  · rw [decide_eq_false hid, Bool.false_and, Bool.and_false]

theorem mem_rankedIds :
    id ∈ (rankedSpans engine promoted q spans).map StoredSpan.traceId ↔
      id ∈ overlapping engine promoted q spans := by
  unfold overlapping
  rw [mem_map, mem_filter, mem_dedup, mem_map, Bool.and_eq_true, any_eq_true]
  constructor
  · rintro ⟨s, hs, rfl⟩
    rw [rankedSpans_eq, mem_filter, Bool.and_eq_true] at hs
    exact ⟨⟨s, hs.1, rfl⟩, hs.2.1, s, mem_spansOf.mpr ⟨hs.1, rfl⟩, hs.2.2⟩
  · rintro ⟨_, hmatch, s, hs, hwindow⟩
    obtain ⟨hspans, rfl⟩ := mem_spansOf.mp hs
    refine ⟨s, ?_, rfl⟩
    rw [rankedSpans_eq, mem_filter, Bool.and_eq_true]
    exact ⟨hspans, hmatch, hwindow⟩

/-- The condition on the aggregate holds of each group, whose spans are all in the window. -/
theorem candidateIds_perm :
    (candidateIds engine promoted q spans).Perm (overlapping engine promoted q spans) := by
  have hall : candidateIds engine promoted q spans =
      ((rankedSpans engine promoted q spans).map StoredSpan.traceId).dedup := by
    unfold candidateIds
    apply filter_eq_self.mpr
    intro id hid
    obtain ⟨s, hs, rfl⟩ := mem_map.mp (mem_dedup.mp hid)
    rw [all_traceStartPrefilter]
    obtain ⟨m, hm, hstart⟩ := exists_trueStart hs
    change q.traceStartMatches (trueStart (rankedSpans engine promoted q spans) s.traceId) = true
    rw [hstart]
    have hmem := (mem_spansOf.mp hm).1
    rw [rankedSpans_eq, mem_filter, Bool.and_eq_true] at hmem
    exact hmem.2.2
  rw [hall]
  apply (perm_ext_iff_of_nodup (nodup_dedup _) ((nodup_dedup _).filter _)).mpr
  intro id
  rw [mem_dedup, mem_rankedIds]
  rfl

theorem latest_eq_recency (h : id ∈ candidateIds engine promoted q spans) :
    latest engine promoted q spans id = recency q spans id := by
  have hover := candidateIds_perm.mem_iff.mp h
  unfold overlapping at hover
  rw [mem_filter, Bool.and_eq_true] at hover
  rw [latest, recency, spansOf_rankedSpans hover.2.1]

/-- The candidates that began in the window are the qualifying traces. -/
theorem filter_overlapping :
    ((overlapping engine promoted q spans).filter fun id =>
      q.traceStartMatches (trueStart spans id)) = qualifying engine promoted q spans := by
  unfold overlapping qualifying
  rw [filter_filter]
  apply filter_congr
  intro id hid
  by_cases hmatch : hasMatch engine promoted q spans id = true
  · by_cases hstart : q.traceStartMatches (trueStart spans id) = true
    · obtain ⟨s, hs, rfl⟩ := mem_map.mp (mem_dedup.mp hid)
      obtain ⟨m, hm, hmin⟩ := exists_trueStart hs
      have hany : (spansOf spans s.traceId).any (fun s => q.traceStartMatches s.startTime) = true := by
        apply any_eq_true.mpr
        refine ⟨m, hm, ?_⟩
        rw [← hmin]
        exact hstart
      rw [hmatch, hstart, hany]
      rfl
    · rw [Bool.eq_false_of_not_eq_true hstart, Bool.false_and, Bool.and_false]
  · rw [Bool.eq_false_of_not_eq_true hmatch, Bool.false_and, Bool.and_false, Bool.false_and]

/-! ## The summaries -/

/-- The spans of a candidate are all fetched. -/
theorem spansOf_perm {tids : List TraceId} (h : IsFetched spans tids rows) (hid : id ∈ tids) :
    (spansOf rows id).Perm (spansOf spans id) := by
  have hperm := h.filter fun s => decide (s.traceId = id)
  rw [filter_filter] at hperm
  apply hperm.trans
  apply Perm.of_eq
  apply filter_congr
  intro s _
  by_cases hs : s.traceId = id
  · simp [hs, hid]
  · simp [hs]

theorem trueStart_rows {tids : List TraceId} (h : IsFetched spans tids rows) (hid : id ∈ tids) :
    trueStart rows id = trueStart spans id := by
  unfold trueStart StoredTrace.startTime
  have hmem := fun a => ((spansOf_perm h hid).map StoredSpan.startTime).mem_iff (a := a)
  rw [min?_congr hmem]

/-- A summary tells the trace from its fetched spans. -/
def summaryIn (rows : List (StoredSpan reader)) (id : TraceId) : TraceSummary :=
  summaryOf ⟨id, spansOf rows id⟩

theorem collectSummaries_eq {tids : List TraceId} (hrows : ∀ id ∈ tids, spansOf rows id ≠ [])
    {out : List TraceSummary} (hout : out.length ≤ q.limit) :
    collectSummaries q rows tids out =
      out ++ ((tids.filter fun id => q.traceStartMatches (trueStart rows id)).take
        (q.limit - out.length)).map (summaryIn rows) := by
  induction tids generalizing out with
  | nil => simp [collectSummaries]
  | cons tid tids ih =>
    have hrows' := fun id hid => hrows id (mem_cons_of_mem tid hid)
    unfold collectSummaries
    split
    · rename_i hfull
      rw [hfull, Nat.sub_self, take_zero, map_nil, append_nil]
    · rename_i hroom
      rcases hspans : spansOf rows tid with _ | ⟨first, rest⟩
      · exact absurd hspans (hrows tid mem_cons_self)
      · have hfirst : first.traceId = tid := by
          have hmem : first ∈ spansOf rows tid := hspans ▸ mem_cons_self
          exact (mem_spansOf.mp hmem).2
        have hstart : (StoredTrace.mk first.traceId (first :: rest)).startTime = trueStart rows tid := by
          rw [trueStart, hspans]
          rfl
        dsimp only
        rw [hstart]
        by_cases hmatch : q.traceStartMatches (trueStart rows tid) = true
        · have hfilter := filter_cons_of_pos
            (p := fun id => q.traceStartMatches (trueStart rows id)) (l := tids) hmatch
          rw [hmatch, Bool.not_true, Bool.and_false, if_neg Bool.false_ne_true, hfilter,
            ih hrows' (by rw [length_append]; simp; omega)]
          have htake : q.limit - out.length = (q.limit - (out ++ [summaryOf ⟨first.traceId,
              first :: rest⟩]).length) + 1 := by
            rw [length_append, length_singleton]
            omega
          rw [htake, take_succ_cons, map_cons, summaryIn, hspans, hfirst, append_assoc]
          rfl
        · have happrox : q.approximate = true := by
            by_contra hnot
            exact hmatch (traceStartMatches_of_not_approximate (Bool.eq_false_of_not_eq_true hnot) _)
          have hfilter := filter_cons_of_neg
            (p := fun id => q.traceStartMatches (trueStart rows id)) (l := tids) hmatch
          rw [Bool.eq_false_of_not_eq_true hmatch, happrox, Bool.not_false, Bool.and_true, if_pos rfl,
            hfilter, ih hrows' hout]

/-- What a search returns for a candidate list. -/
theorem collectSummaries_fetched {ranked : List TraceId}
    (hranked : IsRanking (latest engine promoted q spans) (candidateIds engine promoted q spans) ranked)
    (hrows : IsFetched spans (ranked.take q.fetchLimit) rows) :
    collectSummaries q rows (ranked.take q.fetchLimit) [] =
      (((ranked.take q.fetchLimit).filter fun id => q.traceStartMatches (trueStart spans id)).take
        q.limit).map (summaryIn rows) := by
  have hne : ∀ id ∈ ranked.take q.fetchLimit, spansOf rows id ≠ [] := by
    intro id hid hnil
    have hmem := candidateIds_perm.mem_iff.mp (hranked.perm.mem_iff.mp (mem_of_mem_take hid))
    unfold overlapping at hmem
    rw [mem_filter, mem_dedup] at hmem
    obtain ⟨s, hs, rfl⟩ := mem_map.mp hmem.1
    have hspans := (spansOf_perm hrows hid).mem_iff.mpr (mem_spansOf.mpr ⟨hs, rfl⟩)
    rw [hnil] at hspans
    exact not_mem_nil hspans
  rw [collectSummaries_eq hne (Nat.zero_le _), nil_append, length_nil, Nat.sub_zero]
  congr 2
  apply filter_congr
  intro id hid
  rw [trueStart_rows hrows hid]

theorem map_traceId_summaryIn (rows : List (StoredSpan reader)) (ids : List TraceId) :
    (ids.map (summaryIn rows)).map TraceSummary.traceId = ids := by
  rw [map_map]
  exact map_id ids

/-- What a search keeps of a ranking. -/
def keptOf (q : TraceQuery) (spans : List (StoredSpan reader)) (ranked : List TraceId) : List TraceId :=
  ((ranked.take q.fetchLimit).filter fun id => q.traceStartMatches (trueStart spans id)).take q.limit

theorem exists_searchResult {ranked : List TraceId}
    (h : IsRanking (recency q spans) (overlapping engine promoted q spans) ranked) :
    ∃ out, SearchResult engine promoted q spans out ∧ out.map TraceSummary.traceId = keptOf q spans ranked := by
  have hranked := (isRanking_iff candidateIds_perm fun _ => latest_eq_recency).mpr h
  have hrows : IsFetched spans (ranked.take q.fetchLimit)
      (spans.filter fun s => s.traceId ∈ ranked.take q.fetchLimit) := Perm.refl _
  have hcollect := collectSummaries_fetched hranked hrows
  refine ⟨_, ⟨_, _, ⟨ranked, hranked, rfl⟩, hrows, rfl⟩, ?_⟩
  split
  · rename_i hnil
    rw [keptOf, hnil, filter_nil, take_nil, map_nil]
  · rw [hcollect, map_traceId_summaryIn, keptOf]

end

/-! ## Eighteen straddling traces -/

/-- A reader that reads nothing. -/
def noReader : JsonReader where
  document _ := none
  members _ := none

/-- A span of a trace, without attributes. -/
def bareSpan (trace span : UInt8) (start : ℤ) : StoredSpan noReader where
  traceId := [trace]
  spanId := [span]
  parentSpanId := none
  name := "work".toList
  kind := "INTERNAL".toList
  startTime := start
  durationNs := 1
  statusCode := "UNSET".toList
  statusMessage := none
  service := none
  attributes := []
  resource := []
  scope := []
  events := none
  links := none
  promoted _ := none
  promoted_eq _ _ h := absurd h (by simp)

end Imbh.Traces
