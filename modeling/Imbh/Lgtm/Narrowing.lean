import Imbh.Lgtm.Execute
import Imbh.Traces.Assemble

/-!
# A TraceQL search that narrows its window (imbh-head `exec.rs`)

A window whose traces are over a cap is halved towards its end and searched again. Storage ranks the traces of a window
by their recency, and the spans of those that it finds are fetched in chunks.

* `traceql_exact` — what is found, within the caps.
-/

namespace Imbh.Lgtm

open Lib Imbh.Core Traces List

/-! ## The starts -/

/-- Source: `exec.rs` `narrowing_starts`, the loop -/
def narrowingLoop (stop : ℤ) : ℕ → ℕ → List ℤ
  | _, 0 => []
  | span, steps + 1 =>
      if span / 2 = 0 then [] else saturatingSub stop (span / 2) :: narrowingLoop stop (span / 2) steps

/-- Source: `exec.rs` `narrowing_starts` -/
def narrowingStarts (start stop : ℤ) (steps : ℕ) : List ℤ :=
  narrowingLoop stop (clampI64 (stop - start)).toNat steps

/-- The starts close in on the end, and none reaches it. -/
theorem narrowingLoop_eq {stop s : ℤ} {span steps k : ℕ} (hlow : minInstant ≤ stop - span) (hhigh : stop ≤ maxInstant)
    (h : (narrowingLoop stop span steps)[k]? = some s) :
    stop - span < s ∧ s < stop ∧ s = stop - span / 2 ^ (k + 1) := by
  induction steps generalizing span k with
  | zero => simp [narrowingLoop] at h
  | succ steps ih =>
    rw [narrowingLoop] at h
    split at h
    · simp at h
    · rcases k with _ | k
      · rw [← Option.some.inj h, zero_add, pow_one]
        unfold saturatingSub clampI64 minInstant maxInstant at *
        omega
      · obtain ⟨hfirst, hlast, heq⟩ := ih (by omega) h
        refine ⟨by omega, hlast, heq.trans ?_⟩
        rw [Int.natCast_div, Nat.cast_ofNat, Int.ediv_ediv_of_nonneg two_pos.le, ← pow_succ']

/-! ## The windows -/

/-- A query, and the storage that it is of. -/
structure StoredQuery (reader : JsonReader) where
  regex : Text → Option (Text → Bool)
  engine : SqlEngine
  promoted : List Text
  spans : List (StoredSpan reader)
  expr : SpansetExpr
  limits : EvalLimits

namespace StoredQuery

variable {reader : JsonReader} (sq : StoredQuery reader)

/-- The query for the traces of a window that these filters let through. Source: `source.rs` `fetch_candidates` -/
def queryWith (filters : List SpanCandidateFilter) (bounds : TimeRange) : TraceQuery :=
  buildTraceQuery ⟨bounds, sq.limits.maxTraces, sq.limits.maxSpans, filters⟩

/-- The query for the candidates of a window. -/
def queryOf (bounds : TimeRange) : TraceQuery := sq.queryWith (candidateFilters sq.expr) bounds

/-- The traces of the chunks. Source: `source.rs` `fetch_traces` -/
inductive Fetches (notBefore : ℤ) : List TraceId → List (StoredTrace reader) → Prop
  | done : Fetches notBefore [] []
  | chunk {ids : List TraceId} {packs : List (StoredTrace reader)} {found : TraceId → Option (StoredTrace reader)}
      (hne : ids ≠ []) (hfound : GetManyResult sq.spans (ids.take 32) (some notBefore) found)
      (hrest : Fetches notBefore (ids.drop 32) packs) : Fetches notBefore ids ((ids.take 32).filterMap found ++ packs)

/-- What comes of the candidates. Source: `traceql.rs` `execute_traceql` -/
def evaluated (request : TraceFetchRequest) (candidates : List TraceId) (packs : List (StoredTrace reader)) :
    Except SemanticError (List TraceQueryMatch) :=
  if request.maxTraces < candidates.length then .error (.limitExceeded "TraceQL source traces".toList)
  else if candidates.Nodup then evalTraces sq.regex sq.expr request sq.limits packs 0
  else .error (.malformed "TraceQL source returned a duplicate trace".toList)

/-- A result of a window, where storage is asked for these filters. Source: `traceql.rs` `execute_traceql` -/
inductive ExecutesWith (filters : List SpanCandidateFilter) (bounds : TimeRange) :
    Except SemanticError (List TraceQueryMatch) → Prop
  | refused {e : SemanticError} (hplan : planTraceFetch bounds sq.limits sq.expr = .error e) :
      ExecutesWith filters bounds (.error e)
  | ran {request : TraceFetchRequest} {out : List TraceSummary} {packs : List (StoredTrace reader)}
      (hplan : planTraceFetch bounds sq.limits sq.expr = .ok request)
      (hsearch : SearchResult sq.engine sq.promoted (buildTraceQuery { request with candidate := filters }) sq.spans out)
      (hfetch : out.length ≤ request.maxTraces → sq.Fetches bounds.start (out.map TraceSummary.traceId) packs) :
      ExecutesWith filters bounds (sq.evaluated request (out.map TraceSummary.traceId) packs)

/-- A result of a window: the filters are those of the plan, which takes them from the expression. -/
abbrev Executes (bounds : TimeRange) : Except SemanticError (List TraceQueryMatch) → Prop :=
  sq.ExecutesWith (candidateFilters sq.expr) bounds

/-- A result of the windows that are left. Source: `exec.rs` `traceql`, the loop -/
inductive Narrows (stop : ℤ) : SemanticError → List ℤ → Except SemanticError (List TraceQueryMatch × ℤ) → Prop
  | exhausted {last : SemanticError} : Narrows stop last [] (.error last)
  | found {last : SemanticError} {start : ℤ} {starts : List ℤ} {ms : List TraceQueryMatch}
      (h : sq.Executes ⟨start, stop⟩ (.ok ms)) : Narrows stop last (start :: starts) (.ok (ms, start))
  | capped {last : SemanticError} {start : ℤ} {starts : List ℤ} {what : Text}
      {r : Except SemanticError (List TraceQueryMatch × ℤ)}
      (h : sq.Executes ⟨start, stop⟩ (.error (.limitExceeded what)))
      (hrest : Narrows stop (.limitExceeded what) starts r) : Narrows stop last (start :: starts) r
  | failed {last e : SemanticError} {start : ℤ} {starts : List ℤ} (hcap : ∀ what, e ≠ .limitExceeded what)
      (h : sq.Executes ⟨start, stop⟩ (.error e)) : Narrows stop last (start :: starts) (.error e)

/-- A result of a head's search. Source: `exec.rs` `traceql` -/
def Traceql (start stop : ℤ) (steps : ℕ) (r : Except SemanticError (List TraceQueryMatch × ℤ)) : Prop :=
  sq.Narrows stop (.limitExceeded "TraceQL source traces".toList) (start :: narrowingStarts start stop steps) r

/-- What is to be told of a trace. -/
def matchOf (t : StoredTrace reader) : Option TraceQueryMatch :=
  ((evalTraceReference sq.regex (semanticTrace t) sq.expr sq.limits).toOption.join).map fun spanset =>
    ⟨toHex t.traceId, t.startTime, spanset⟩

/-- The traces that have a span that is asked for and that began in the window. -/
def qualifies (bounds : TimeRange) : List TraceId := qualifying sq.engine sq.promoted (sq.queryOf bounds) sq.spans

/-- The matches are those of these traces, as `get` gives them: traces that qualify, and where there is room among the
candidates, all that do, the most recent ones first. -/
structure Tells (bounds : TimeRange) (ms : List TraceQueryMatch) (traces : List (StoredTrace reader)) : Prop where
  told : ms = traces.filterMap sq.matchOf
  evaluates : ∀ t ∈ traces, ∃ found, evalTraceReference sq.regex (semanticTrace t) sq.expr sq.limits = .ok found
  fetched : ∀ t ∈ traces, GetResult sq.spans t.traceId (some t)
  sound : (traces.map StoredTrace.traceId).Nodup ∧ ∀ id ∈ traces.map StoredTrace.traceId, id ∈ sq.qualifies bounds
  complete : HasRoom sq.engine sq.promoted (sq.queryOf bounds) sq.spans →
    IsRanking (recency (sq.queryOf bounds) sq.spans) (sq.qualifies bounds) (traces.map StoredTrace.traceId)

variable {sq} {bounds : TimeRange} {filters : List SpanCandidateFilter}

/-- An answer is that of the first window that is not over a cap. -/
theorem Narrows.ok {stop eff : ℤ} {last : SemanticError} {starts : List ℤ}
    {r : Except SemanticError (List TraceQueryMatch × ℤ)} {ms : List TraceQueryMatch}
    (h : sq.Narrows stop last starts r) (hr : r = .ok (ms, eff)) :
    ∃ wider narrower, starts = wider ++ eff :: narrower ∧
      (∀ s ∈ wider, ∃ what, sq.Executes ⟨s, stop⟩ (.error (.limitExceeded what))) ∧ sq.Executes ⟨eff, stop⟩ (.ok ms) := by
  induction h with
  | exhausted | failed => cases hr
  | @found _ _ starts _ h =>
    obtain ⟨rfl, rfl⟩ := Prod.mk.inj (Except.ok.inj hr)
    exact ⟨[], starts, rfl, by simp, h⟩
  | @capped _ start _ what _ h _ ih =>
    obtain ⟨wider, narrower, rfl, hwider, hexecutes⟩ := ih hr
    exact ⟨start :: wider, narrower, rfl, forall_mem_cons.mpr ⟨⟨what, h⟩, hwider⟩, hexecutes⟩

/-- Traces whose spans all start in the window are fetched as `get` does. -/
theorem Fetches.get {notBefore : ℤ} {ids : List TraceId} {packs : List (StoredTrace reader)}
    (h : sq.Fetches notBefore ids packs)
    (hids : ∀ id ∈ ids, spansOf sq.spans id ≠ [] ∧ ∀ s ∈ spansOf sq.spans id, notBefore ≤ s.startTime) :
    packs.map StoredTrace.traceId = ids ∧ ∀ t ∈ packs, GetResult sq.spans t.traceId (some t) := by
  induction h with
  | done => simp
  | @chunk ids packs found hne hfound _ ih =>
    obtain ⟨hrest, hget⟩ := ih fun id hid => hids id (mem_of_mem_drop hid)
    rw [GetManyResult, if_neg (by simpa using hne)] at hfound
    obtain ⟨rows, hrows, rfl⟩ := hfound
    let sorted (id : TraceId) : List (StoredSpan reader) :=
      (spansOf rows id).insertionSort fun a b => a.startTime ≤ b.startTime
    have hsorted (id : TraceId) (hid : id ∈ ids.take 32) : (sorted id).Perm (spansOf sq.spans id) :=
      (perm_insertionSort _ _).trans (spansOf_fetchedSince hrows hid fun t ht =>
        Option.some.inj ht ▸ (hids id (mem_of_mem_take hid)).2)
    have hassembled (id : TraceId) (hid : id ∈ ids.take 32) : assembled id (sorted id) = some ⟨id, sorted id⟩ :=
      assembled_of_ne_nil fun hnil => (hids id (mem_of_mem_take hid)).1 (nil_perm.mp (hnil ▸ hsorted id hid))
    have hchunk : (ids.take 32).filterMap (fun id => assembled id (sorted id)) =
        (ids.take 32).map fun id => ⟨id, sorted id⟩ := by
      rw [← filterMap_eq_map]
      exact filterMap_congr hassembled
    rw [hchunk]
    refine ⟨?_, fun t ht => ?_⟩
    · rw [map_append, map_map, hrest]
      exact (congrArg (· ++ _) (map_id _)).trans (take_append_drop 32 ids)
    · rcases mem_append.mp ht with ht | ht
      · obtain ⟨id, hid, rfl⟩ := mem_map.mp ht
        exact ⟨sorted id, hsorted id hid, pairwise_insertionSort _ _, (hassembled id hid).symm⟩
      · exact hget t ht

/-- An evaluation that succeeds tells the matches. -/
theorem evalTraces_ok {request : TraceFetchRequest} {packs : List (StoredTrace reader)} {count : ℕ}
    {ms : List TraceQueryMatch} (h : evalTraces sq.regex sq.expr request sq.limits packs count = .ok ms) :
    ms = packs.filterMap sq.matchOf ∧
      ∀ t ∈ packs, ∃ found, evalTraceReference sq.regex (semanticTrace t) sq.expr sq.limits = .ok found := by
  induction packs generalizing count ms with
  | nil =>
    obtain rfl := Except.ok.inj h
    simp
  | cons t packs ih =>
    unfold evalTraces at h
    split at h
    · cases h
    · obtain ⟨found, hfound, h⟩ := bind_eq_ok.mp h
      obtain ⟨rest, hrest, h⟩ := bind_eq_ok.mp h
      obtain ⟨rfl, hall⟩ := ih hrest
      refine ⟨?_, forall_mem_cons.mpr ⟨⟨found, hfound⟩, hall⟩⟩
      have hmatch : sq.matchOf t = found.map fun spanset => ⟨toHex t.traceId, t.startTime, spanset⟩ := by
        rw [matchOf, hfound]
        rfl
      rcases found with _ | spanset
      · rw [filterMap_cons_none hmatch]
        exact (Except.ok.inj h).symm
      · rw [filterMap_cons_some hmatch]
        exact (Except.ok.inj h).symm

theorem foldl_addFilter_range (filters : List SpanCandidateFilter) (q : TraceQuery) :
    (filters.foldl addFilter q).traceStartRange = q.traceStartRange := by
  induction filters generalizing q with
  | nil => rfl
  | cons f filters ih =>
    rw [foldl_cons, ih]
    rcases f <;> rfl

/-- The spans of a qualifying trace all start in the window. -/
theorem spans_of_qualifies (hrange : ∀ s ∈ sq.spans, s.InRange) {id : TraceId}
    (hid : id ∈ qualifying sq.engine sq.promoted (sq.queryWith filters bounds) sq.spans) :
    spansOf sq.spans id ≠ [] ∧ ∀ s ∈ spansOf sq.spans id, bounds.start ≤ s.startTime := by
  rw [qualifying, mem_filter, mem_dedup, Bool.and_eq_true] at hid
  obtain ⟨hmem, -, hstart⟩ := hid
  obtain ⟨s, hs, rfl⟩ := mem_map.mp hmem
  have hne : spansOf sq.spans s.traceId ≠ [] := ne_nil_of_mem (mem_spansOf.mpr ⟨hs, rfl⟩)
  refine ⟨hne, fun s' hs' => ?_⟩
  have hleast : trueStart sq.spans s.traceId ≤ s'.startTime := (exists_min hne).2 s' hs'
  have hlow := (hrange s' (mem_spansOf.mp hs').1).1
  rw [TraceQuery.traceStartMatches, show (sq.queryWith filters bounds).traceStartRange = some bounds from
    foldl_addFilter_range _ _] at hstart
  dsimp only [TimeRange.admits] at hstart
  rw [Bool.and_eq_true, decide_eq_true_eq] at hstart
  rcases hstart.1 with h | h <;> omega

/-- A search keeps traces that qualify. -/
theorem mem_qualifying_of_keptOf {ranked : List TraceId}
    (hranked : IsRanking (recency (sq.queryWith filters bounds) sq.spans)
      (overlapping sq.engine sq.promoted (sq.queryWith filters bounds) sq.spans) ranked)
    {id : TraceId} (hid : id ∈ keptOf (sq.queryWith filters bounds) sq.spans ranked) :
    id ∈ qualifying sq.engine sq.promoted (sq.queryWith filters bounds) sq.spans := by
  obtain ⟨hmem, hstart⟩ := mem_filter.mp (mem_of_mem_take hid)
  rw [← filter_overlapping]
  exact mem_filter.mpr ⟨hranked.perm.mem_iff.mp (mem_of_mem_take hmem), hstart⟩

/-- The candidates of a search, as they are ranked. -/
theorem exists_ranked {engine : SqlEngine} {promoted : List Text} {spans : List (StoredSpan reader)} {q : TraceQuery}
    {out : List TraceSummary} (h : SearchResult engine promoted q spans out) :
    ∃ ranked, IsRanking (recency q spans) (overlapping engine promoted q spans) ranked ∧
      out.map TraceSummary.traceId = keptOf q spans ranked := by
  obtain ⟨tids, rows, ⟨ranked, hranked, rfl⟩, hrows, rfl⟩ := h
  refine ⟨ranked, (isRanking_iff candidateIds_perm fun _ => latest_eq_recency).mp hranked, ?_⟩
  split
  · rename_i hnil
    rw [keptOf, hnil, filter_nil, take_nil, map_nil]
  · rw [collectSummaries_fetched hranked hrows, map_traceId_summaryIn, keptOf]

theorem plan_eq {request : TraceFetchRequest} (h : planTraceFetch bounds sq.limits sq.expr = .ok request) :
    request = ⟨bounds, sq.limits.maxTraces, sq.limits.maxSpans, candidateFilters sq.expr⟩ := by
  unfold planTraceFetch at h
  split at h
  · cases h
  · exact (Except.ok.inj h).symm

/-- Storage is asked for one more trace than the cap allows, so that candidates within the cap are all there are. -/
theorem keptOf_eq {ranked : List TraceId} (hfew : sq.spans.length < 2 ^ 64)
    (hranked : IsRanking (recency (sq.queryWith filters bounds) sq.spans)
      (overlapping sq.engine sq.promoted (sq.queryWith filters bounds) sq.spans) ranked)
    (hroom : HasRoom sq.engine sq.promoted (sq.queryWith filters bounds) sq.spans)
    (hcap : (keptOf (sq.queryWith filters bounds) sq.spans ranked).length ≤ sq.limits.maxTraces) :
    keptOf (sq.queryWith filters bounds) sq.spans ranked =
      ranked.filter fun id => (sq.queryWith filters bounds).traceStartMatches (trueStart sq.spans id) := by
  have hlimit : (sq.queryWith filters bounds).limit = min (sq.limits.maxTraces + 1) (2 ^ 64 - 1) :=
    foldl_addFilter_limit _ _
  have hranks : (ranked.filter fun id =>
      (sq.queryWith filters bounds).traceStartMatches (trueStart sq.spans id)).length ≤ sq.spans.length :=
    calc _ ≤ ranked.length := length_filter_le _ _
      _ = (overlapping sq.engine sq.promoted (sq.queryWith filters bounds) sq.spans).length := hranked.perm.length_eq
      _ ≤ (sq.spans.map StoredSpan.traceId).dedup.length := length_filter_le _ _
      _ ≤ (sq.spans.map StoredSpan.traceId).length := (dedup_sublist _).length_le
      _ = sq.spans.length := length_map _
  rw [keptOf, take_filter_of_room hroom hranked, length_take, hlimit] at hcap
  rw [keptOf, take_filter_of_room hroom hranked, take_of_length_le (by omega)]

/-- What a window tells. -/
theorem Executes.tells {r : Except SemanticError (List TraceQueryMatch)} {ms : List TraceQueryMatch}
    (hfew : sq.spans.length < 2 ^ 64) (hrange : ∀ s ∈ sq.spans, s.InRange) (h : sq.Executes bounds r)
    (hr : r = .ok ms) : ∃ traces, sq.Tells bounds ms traces := by
  rcases h with hplan | @⟨request, out, packs, hplan, hsearch, hfetch⟩
  · cases hr
  obtain rfl := plan_eq hplan
  replace hsearch : SearchResult sq.engine sq.promoted (sq.queryOf bounds) sq.spans out := hsearch
  unfold evaluated at hr
  split at hr
  · cases hr
  rename_i hcap
  split at hr
  on_goal 2 => cases hr
  rename_i hnodup
  simp only [length_map] at hcap
  obtain ⟨ranked, hranked, hids⟩ := exists_ranked hsearch
  have hqualifies : ∀ id ∈ out.map TraceSummary.traceId, id ∈ sq.qualifies bounds := by
    intro id hid
    rw [hids] at hid
    exact mem_qualifying_of_keptOf hranked hid
  obtain ⟨htraces, hget⟩ := (hfetch (not_lt.mp hcap)).get fun id hid => spans_of_qualifies hrange (hqualifies id hid)
  obtain ⟨htold, hevaluates⟩ := evalTraces_ok hr
  refine ⟨packs, htold, hevaluates, hget, htraces ▸ ⟨hnodup, hqualifies⟩, fun hroom => ?_⟩
  have hlen := congrArg List.length hids
  rw [length_map] at hlen
  have hkept := keptOf_eq hfew hranked hroom (hlen ▸ not_lt.mp hcap)
  rw [htraces, hids, qualifies, ← filter_overlapping]
  refine hkept ▸ ?_
  exact hranked.filter _

/-- **A search tells the matches of the first window that is not over a cap**, each window being half as long as the
one before it. -/
theorem traceql_exact {start stop eff : ℤ} {steps : ℕ} {ms : List TraceQueryMatch} (hfew : sq.spans.length < 2 ^ 64)
    (hrange : ∀ s ∈ sq.spans, s.InRange) (hstart : minInstant ≤ start) (hle : start ≤ stop) (hstop : stop ≤ maxInstant)
    (h : sq.Traceql start stop steps (.ok (ms, eff))) :
    ∃ wider narrower, start :: narrowingStarts start stop steps = wider ++ eff :: narrower ∧
      (∀ s ∈ wider, ∃ what, sq.Executes ⟨s, stop⟩ (.error (.limitExceeded what))) ∧
      (wider = [] ∧ eff = start ∨ start < eff ∧ eff < stop ∧
        eff = stop - min (stop - start) maxInstant / 2 ^ wider.length) ∧
      ∃ traces, sq.Tells ⟨eff, stop⟩ ms traces := by
  obtain ⟨wider, narrower, hstarts, hwider, hexecutes⟩ := h.ok rfl
  refine ⟨wider, narrower, hstarts, hwider, ?_, hexecutes.tells hfew hrange rfl⟩
  rcases wider with _ | ⟨first, wider⟩
  · exact .inl ⟨rfl, (List.cons.inj hstarts).1.symm⟩
  · have hspan : ((clampI64 (stop - start)).toNat : ℤ) = min (stop - start) maxInstant := by
      unfold clampI64 minInstant maxInstant
      omega
    have hnth : (narrowingStarts start stop steps)[wider.length]? = some eff := by
      rw [(List.cons.inj hstarts).2]
      exact getElem?_append_right le_rfl |>.trans (by simp)
    obtain ⟨hlow, hhigh, heff⟩ := narrowingLoop_eq (by rw [hspan]; omega) hstop hnth
    rw [hspan] at hlow heff
    exact .inr ⟨by omega, hhigh, heff⟩

/-- Two traces that began at 20 and at 60, of which a cap lets one through. -/
def twoTraces : StoredQuery noReader where
  regex _ := none
  engine := noEngine
  promoted := []
  spans := [Traces.bareSpan 1 0 20, Traces.bareSpan 2 0 60]
  expr := .select (.nameEq "work".toList)
  limits := { EvalLimits.default with maxTraces := 1 }

/-- A window that is too wide is an error; the narrower one has the trace inside. -/
theorem traceql_exact_twoTraces : ∃ (wider : List ℤ) (traces : List (StoredTrace noReader)),
    (∀ s ∈ wider, ∃ what, twoTraces.Executes ⟨s, 100⟩ (.error (.limitExceeded what))) ∧
      twoTraces.Tells ⟨50, 100⟩ [⟨"02".toList, 60, ["00".toList]⟩] traces := by
  have hwhole : twoTraces.Executes ⟨0, 100⟩ (.error (.limitExceeded "TraceQL source traces".toList)) := by
    have hplan : planTraceFetch ⟨0, 100⟩ twoTraces.limits twoTraces.expr = .ok ⟨_, _, _, _⟩ := rfl
    exact @ExecutesWith.ran _ twoTraces (candidateFilters twoTraces.expr) _ _ _ _ hplan
      ⟨[[2], [1]], _, ⟨[[2], [1]], ⟨by decide +kernel, by decide +kernel⟩, rfl⟩, Perm.refl _, rfl⟩
      fun h => show twoTraces.Fetches 0 _ [] from absurd h (by decide)
  have hhalf : twoTraces.Executes ⟨50, 100⟩ (.ok [⟨"02".toList, 60, ["00".toList]⟩]) := by
    have hplan : planTraceFetch ⟨50, 100⟩ twoTraces.limits twoTraces.expr = .ok ⟨_, _, _, _⟩ := rfl
    have hfound : GetManyResult twoTraces.spans [[2]] (some 50) _ :=
      (if_neg (cons_ne_nil _ _)).mpr ⟨[Traces.bareSpan 2 0 60], Perm.refl _, rfl⟩
    have hfetch : twoTraces.Fetches 50 [[2]] _ := .chunk (cons_ne_nil _ _) hfound .done
    exact @ExecutesWith.ran _ twoTraces (candidateFilters twoTraces.expr) _ _ _ _ hplan
      ⟨[[2]], _, ⟨[[2]], ⟨by decide +kernel, by decide +kernel⟩, rfl⟩, Perm.refl _, rfl⟩ fun _ => hfetch
  have hrun : twoTraces.Traceql 0 100 1 (.ok (_, 50)) := .capped hwhole (.found hhalf)
  obtain ⟨wider, -, -, hwider, -, traces, htells⟩ := traceql_exact (by decide)
    (by simp [twoTraces, Traces.bareSpan, StoredSpan.InRange, minInstant, maxInstant])
    (by decide) (by decide) (by decide) hrun
  exact ⟨wider, traces, hwider, htells⟩

end StoredQuery

end Imbh.Lgtm
