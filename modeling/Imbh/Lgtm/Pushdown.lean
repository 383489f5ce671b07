import Imbh.Lgtm.Narrowing

/-!
# A TraceQL query with and without the filters of its expression

The filters leave out traces of a window before any is evaluated.

* `candidates_keep_matches` — where the filters are exact, a trace with a result has a span that they let through; and
  where storage has room for the window without them, the query has the answers with them that it has without.
* `negated_left_not_needed` — `{ span.k = "a" } !> { span.k = "v" }` selects a span that the filters do not find.
-/

namespace Imbh.Lgtm.StoredQuery

open Lib Imbh.Core Traces List

variable {reader : JsonReader} {sq : StoredQuery reader} {filters : List SpanCandidateFilter} {bounds : TimeRange}
  {ranked : List TraceId} {packs : List (StoredTrace reader)} {ms : List TraceQueryMatch}
  {r : Except SemanticError (List TraceQueryMatch)} {t : StoredTrace reader} {spans : List (StoredSpan reader)}

variable (sq) in
/-- The filters let a span of the trace through. -/
def letsThrough (filters : List SpanCandidateFilter) (bounds : TimeRange) (id : TraceId) : Bool :=
  hasMatch sq.engine sq.promoted (sq.queryWith filters bounds) sq.spans id

variable (sq) in
/-- The traces that began in the window. -/
def began (bounds : TimeRange) : List TraceId :=
  qualifying sq.engine sq.promoted (sq.queryWith [] bounds) sq.spans

/-! ## The candidates -/

theorem foldl_addFilter_inclusive (filters : List SpanCandidateFilter) (q : TraceQuery) :
    (filters.foldl addFilter q).traceStartEndInclusive = q.traceStartEndInclusive := by
  induction filters generalizing q with
  | nil => rfl
  | cons f filters ih =>
    rw [foldl_cons, ih]
    rcases f <;> rfl

theorem traceStartMatches_queryWith :
    (sq.queryWith filters bounds).traceStartMatches = (sq.queryWith [] bounds).traceStartMatches := by
  funext start
  unfold TraceQuery.traceStartMatches queryWith buildTraceQuery
  rw [foldl_addFilter_range, foldl_addFilter_inclusive]
  rfl

theorem recency_queryWith :
    recency (sq.queryWith filters bounds) sq.spans = recency (sq.queryWith [] bounds) sq.spans := by
  unfold recency
  rw [traceStartMatches_queryWith]

/-- The filters do not matter to what is kept of ranked ids. -/
theorem keptOf_queryWith :
    keptOf (sq.queryWith filters bounds) sq.spans ranked = keptOf (sq.queryWith [] bounds) sq.spans ranked := by
  have hlimit : (sq.queryWith filters bounds).limit = (sq.queryWith [] bounds).limit := foldl_addFilter_limit _ _
  have hfetch : (sq.queryWith filters bounds).fetchLimit = (sq.queryWith [] bounds).fetchLimit := by
    unfold TraceQuery.fetchLimit TraceQuery.approximate TraceQuery.traceStartPrefilter
    rw [hlimit]
    unfold queryWith buildTraceQuery
    rw [foldl_addFilter_range, foldl_addFilter_inclusive]
    rfl
  unfold keptOf
  rw [hlimit, hfetch, traceStartMatches_queryWith]

/-- The filters let through some of the traces that the window has without them. -/
theorem overlapping_queryWith : overlapping sq.engine sq.promoted (sq.queryWith filters bounds) sq.spans =
    (overlapping sq.engine sq.promoted (sq.queryWith [] bounds) sq.spans).filter (sq.letsThrough filters bounds) := by
  unfold overlapping
  rw [filter_filter, traceStartMatches_queryWith]
  apply filter_congr
  intro id _
  rw [← letsThrough, ← Bool.and_assoc]
  congr 1
  by_cases h : sq.letsThrough filters bounds id = true
  · obtain ⟨s, hs, hmatch⟩ := any_eq_true.mp h
    rw [Bool.and_eq_true] at hmatch
    have hbare : hasMatch sq.engine sq.promoted (sq.queryWith [] bounds) sq.spans id = true := by
      apply any_eq_true.mpr
      exact ⟨s, hs, Bool.and_eq_true _ _ |>.mpr
        ⟨hmatch.1, matchesSpan_buildTraceQuery fun f hf => absurd hf not_mem_nil⟩⟩
    rw [h, hbare]
    rfl
  · rw [Bool.eq_false_of_not_eq_true h, Bool.false_and]

theorem isRanking_queryWith :
    IsRanking (recency (sq.queryWith filters bounds) sq.spans)
        (overlapping sq.engine sq.promoted (sq.queryWith filters bounds) sq.spans) ranked ↔
      IsRanking (recency (sq.queryWith [] bounds) sq.spans)
        ((overlapping sq.engine sq.promoted (sq.queryWith [] bounds) sq.spans).filter (sq.letsThrough filters bounds))
        ranked := by
  rw [recency_queryWith, overlapping_queryWith]

/-- Where storage has room without the filters, it keeps with them those that they let through. -/
theorem keptOf_filter (hfew : sq.spans.length < 2 ^ 64)
    (hranked : IsRanking (recency (sq.queryWith [] bounds) sq.spans)
      (overlapping sq.engine sq.promoted (sq.queryWith [] bounds) sq.spans) ranked)
    (hroom : HasRoom sq.engine sq.promoted (sq.queryWith [] bounds) sq.spans)
    (hcap : (keptOf (sq.queryWith [] bounds) sq.spans ranked).length ≤ sq.limits.maxTraces) (keep : TraceId → Bool) :
    keptOf (sq.queryWith [] bounds) sq.spans (ranked.filter keep) =
      (keptOf (sq.queryWith [] bounds) sq.spans ranked).filter keep := by
  have hkept := keptOf_eq hfew hranked hroom hcap
  let q := sq.queryWith [] bounds
  let inWindow : TraceId → Bool := fun id => q.traceStartMatches (trueStart sq.spans id)
  have hwhole : (((ranked.take q.fetchLimit).filter inWindow).take q.limit) = ranked.filter inWindow := hkept
  have hsplit : ranked.filter inWindow =
      (ranked.take q.fetchLimit).filter inWindow ++ (ranked.drop q.fetchLimit).filter inWindow := by
    rw [← filter_append, take_append_drop]
  have hlengths := congrArg List.length hwhole
  rw [hsplit, length_append, length_take] at hlengths
  have hnone : (ranked.drop q.fetchLimit).filter inWindow = [] := length_eq_zero_iff.mp (by omega)
  have hall : ((ranked.take q.fetchLimit).filter inWindow).length ≤ q.limit := by omega
  change ((((ranked.filter keep).take q.fetchLimit).filter inWindow).take q.limit) =
    (((ranked.take q.fetchLimit).filter inWindow).take q.limit).filter keep
  rw [filter_take_filter keep hnone, take_of_length_le hall,
    take_of_length_le ((length_filter_le _ _).trans hall)]

/-! ## The traces -/

/-- A trace as `get` gives it. -/
theorem getResult_iff :
    GetResult spans t.traceId (some t) ↔ t.spans ≠ [] ∧ t.spans.Perm (spansOf spans t.traceId) ∧
      t.spans.Pairwise fun a b => a.startTime ≤ b.startTime := by
  constructor
  · rintro ⟨rows, hperm, hordered, heq⟩
    rcases rows with _ | ⟨s, rows⟩
    · cases heq
    · have hspans : t.spans = s :: rows := congrArg StoredTrace.spans (Option.some.inj heq)
      exact hspans ▸ ⟨cons_ne_nil _ _, hperm, hordered⟩
  · rintro ⟨hne, hperm, hordered⟩
    exact ⟨t.spans, hperm, hordered, (assembled_of_ne_nil hne).symm⟩

/-- The rows of different traces. -/
theorem rows_perm (hget : ∀ t ∈ packs, GetResult spans t.traceId (some t))
    (hnodup : (packs.map StoredTrace.traceId).Nodup) :
    (packs.flatMap StoredTrace.spans).Perm (spans.filter fun s => s.traceId ∈ packs.map StoredTrace.traceId) := by
  induction packs with
  | nil => simp
  | cons t packs ih =>
    obtain ⟨hnew, hnodup⟩ := nodup_cons.mp hnodup
    have hrows := ih (fun t' ht' => hget t' (mem_cons_of_mem t ht')) hnodup
    have hone := (getResult_iff.mp (hget t mem_cons_self)).2.1
    rw [flatMap_cons]
    refine (hone.append hrows).trans ?_
    have hsplit := filter_append_perm (fun s => decide (s.traceId = t.traceId))
      (spans.filter fun s => s.traceId ∈ (t :: packs).map StoredTrace.traceId)
    rw [filter_filter, filter_filter] at hsplit
    refine (Perm.of_eq ?_).trans hsplit
    congr 1
    · apply filter_congr
      intro s _
      by_cases hs : s.traceId = t.traceId <;> simp [hs]
    · apply filter_congr
      intro s _
      by_cases hs : s.traceId = t.traceId
      · simpa [hs] using hnew
      · simp [hs]

/-- The spans of a trace among the rows of all are its own. -/
theorem spansOf_rows (hget : ∀ t ∈ packs, GetResult spans t.traceId (some t))
    (hnodup : (packs.map StoredTrace.traceId).Nodup) (ht : t ∈ packs) :
    spansOf (packs.flatMap StoredTrace.spans) t.traceId = t.spans := by
  have hids : ∀ t ∈ packs, ∀ s ∈ t.spans, s.traceId = t.traceId := fun t ht s hs =>
    (mem_spansOf.mp ((getResult_iff.mp (hget t ht)).2.1.mem_iff.mp hs)).2
  obtain ⟨before, after, rfl⟩ := append_of_mem ht
  have hnone : ∀ t' ∈ before ++ after, ∀ s ∈ t'.spans, s.traceId ≠ t.traceId := by
    intro t' ht' s hs hid
    have hmem : t' ∈ before ++ t :: after := by
      rw [mem_append] at ht' ⊢
      exact ht'.imp_right (mem_cons_of_mem t)
    rw [map_append, map_cons, nodup_middle, ← map_append] at hnodup
    exact (nodup_cons.mp hnodup).1 (mem_map.mpr ⟨t', ht', (hids t' hmem s hs).symm.trans hid⟩)
  unfold spansOf
  rw [flatMap_append, flatMap_cons, filter_append, filter_append,
    filter_eq_nil_iff.mpr, filter_eq_self.mpr, filter_eq_nil_iff.mpr, nil_append, append_nil]
  · intro s hs
    obtain ⟨t', ht', hs⟩ := mem_flatMap.mp hs
    simpa using hnone t' (mem_append_right _ ht') s hs
  · intro s hs
    simpa using hids t ht s hs
  · intro s hs
    obtain ⟨t', ht', hs⟩ := mem_flatMap.mp hs
    simpa using hnone t' (mem_append_left _ ht') s hs

/-- Storage may fetch traces with their spans in the order in which `get` gives them. -/
theorem fetches_of_get {notBefore : ℤ} {packs : List (StoredTrace reader)}
    (hget : ∀ t ∈ packs, GetResult sq.spans t.traceId (some t)) (hnodup : (packs.map StoredTrace.traceId).Nodup)
    (hstart : ∀ t ∈ packs, ∀ s ∈ t.spans, notBefore ≤ s.startTime) :
    sq.Fetches notBefore (packs.map StoredTrace.traceId) packs := by
  by_cases hpacks : packs = []
  · rw [hpacks]
    exact .done
  · have htake : ∀ t ∈ packs.take 32, t ∈ packs := fun t ht => mem_of_mem_take ht
    have hdrop : ∀ t ∈ packs.drop 32, t ∈ packs := fun t ht => mem_of_mem_drop ht
    have hchunk : ((packs.take 32).map StoredTrace.traceId).Nodup :=
      hnodup.sublist ((take_sublist 32 packs).map _)
    let rows := (packs.take 32).flatMap StoredTrace.spans
    have hfetched : IsFetchedSince sq.spans ((packs.map StoredTrace.traceId).take 32) (some notBefore) rows := by
      rw [IsFetchedSince, ← map_take]
      refine (rows_perm (fun t ht => hget t (htake t ht)) hchunk).trans (Perm.of_eq (filter_congr ?_))
      intro s hs
      by_cases hmem : s.traceId ∈ (packs.take 32).map StoredTrace.traceId
      · obtain ⟨t, ht, hid⟩ := mem_map.mp hmem
        have hin : s ∈ t.spans :=
          (getResult_iff.mp (hget t (htake t ht))).2.1.mem_iff.mpr (mem_spansOf.mpr ⟨hs, hid.symm⟩)
        have hlate := hstart t (htake t ht) s hin
        rw [decide_eq_true hmem, Option.all_some, decide_eq_true hlate]
        rfl
      · rw [decide_eq_false hmem, Bool.false_and]
    have hne : packs.map StoredTrace.traceId ≠ [] := fun h => hpacks (map_eq_nil_iff.mp h)
    have hfound : GetManyResult sq.spans ((packs.map StoredTrace.traceId).take 32) (some notBefore) _ :=
      (if_neg (by simpa using hpacks)).mpr ⟨rows, hfetched, rfl⟩
    have hrest : sq.Fetches notBefore ((packs.map StoredTrace.traceId).drop 32) (packs.drop 32) := by
      rw [← map_drop]
      exact fetches_of_get (fun t ht => hget t (hdrop t ht)) (hnodup.sublist ((drop_sublist 32 packs).map _))
        fun t ht => hstart t (hdrop t ht)
    have hfirst : ((packs.map StoredTrace.traceId).take 32).filterMap (fun id =>
        assembled id ((spansOf rows id).insertionSort fun a b => a.startTime ≤ b.startTime)) = packs.take 32 := by
      rw [← map_take, filterMap_map]
      refine (filterMap_congr fun t ht => ?_).trans filterMap_some
      obtain ⟨hspans, -, hordered⟩ := getResult_iff.mp (hget t (htake t ht))
      rw [Function.comp_apply, spansOf_rows (fun t ht => hget t (htake t ht)) hchunk ht, hordered.insertionSort_eq,
        assembled_of_ne_nil hspans]
    have hall := Fetches.chunk hne hfound hrest
    rw [hfirst, take_append_drop] at hall
    exact hall
  termination_by packs.length
  decreasing_by
    have := length_pos_of_ne_nil hpacks
    rw [length_drop]
    omega

/-! ## The matches -/

variable (sq) in
/-- The filters are exact on the traces of the window, and without them storage has room for the window. The other
fields say what columns and the JSON library are like. -/
structure Narrowable (bounds : TimeRange) : Prop where
  few : sq.spans.length < 2 ^ 64
  inRange : ∀ s ∈ sq.spans, s.InRange
  agree : ∀ s ∈ sq.spans, reader.Agree s.attributes
  exact : ∀ id ∈ sq.began bounds, FiltersExact sq.expr ⟨id, spansOf sq.spans id⟩
  room : HasRoom sq.engine sq.promoted (sq.queryWith [] bounds) sq.spans

/-- A trace with a result has a span that the filters let through. -/
theorem letsThrough_of_result (h : sq.Narrowable bounds) (hget : GetResult sq.spans t.traceId (some t))
    (hbegan : t.traceId ∈ sq.began bounds) {ids : List Text}
    (hids : evalTraceReference sq.regex (semanticTrace t) sq.expr sq.limits = .ok (some ids)) :
    sq.letsThrough (candidateFilters sq.expr) bounds t.traceId = true := by
  obtain ⟨-, hperm, -⟩ := getResult_iff.mp hget
  have hmem : ∀ s, s ∈ t.spans → s ∈ sq.spans ∧ s.traceId = t.traceId := fun s hs =>
    mem_spansOf.mp (hperm.mem_iff.mp hs)
  have hexact : FiltersExact sq.expr t :=
    (h.exact _ hbegan).imp_right fun hplain => ⟨hplain.1, fun s hs => hplain.2 s (hperm.mem_iff.mp hs)⟩
  let request : TraceFetchRequest :=
    ⟨bounds, sq.limits.maxTraces, sq.limits.maxSpans, candidateFilters sq.expr⟩
  have hreq : request.candidate = candidateFilters sq.expr := rfl
  obtain ⟨s, hs, hmatch⟩ := exists_matchesSpan (fun s hs => h.agree s (hmem s hs).1) hexact hreq hids
  exact any_eq_true.mpr ⟨s, (hmem s hs).1, (Bool.and_eq_true _ _).mpr ⟨decide_eq_true (hmem s hs).2, hmatch⟩⟩

/-- What is evaluated without the filters, is evaluated with them. -/
theorem evaluated_filter (h : sq.Narrowable bounds) {request : TraceFetchRequest}
    (hget : ∀ t ∈ packs, GetResult sq.spans t.traceId (some t)) (hbegan : ∀ t ∈ packs, t.traceId ∈ sq.began bounds)
    (hok : sq.evaluated request (packs.map StoredTrace.traceId) packs = .ok ms) :
    sq.evaluated request
      ((packs.map StoredTrace.traceId).filter (sq.letsThrough (candidateFilters sq.expr) bounds))
      (packs.filter fun t => sq.letsThrough (candidateFilters sq.expr) bounds t.traceId) = .ok ms := by
  unfold evaluated at hok ⊢
  split at hok
  · cases hok
  · rename_i hcap
    split at hok
    · rename_i hnodup
      rw [if_neg (not_lt.mpr ((length_filter_le _ _).trans (not_lt.mp hcap))), if_pos (hnodup.filter _)]
      apply evalTraces_filter rfl (le_refl 0) _ hok
      intro t ht ids hids
      exact letsThrough_of_result h (hget t ht) (hbegan t ht) hids
    · cases hok

theorem evaluated_cap {request : TraceFetchRequest} {ids : List TraceId}
    (h : sq.evaluated request ids packs = .ok ms) : ids.length ≤ request.maxTraces := by
  unfold evaluated at h
  split at h
  · cases h
  · exact not_lt.mp ‹_›

theorem keptOf_nodup {q : TraceQuery} (h : IsRanking (recency q sq.spans) (overlapping sq.engine sq.promoted q sq.spans)
    ranked) : (keptOf q sq.spans ranked).Nodup := by
  have hranked : ranked.Nodup := h.perm.nodup_iff.mpr ((nodup_dedup _).filter _)
  exact hranked.sublist ((take_sublist _ _).trans (filter_sublist.trans (take_sublist _ _)))

/-- With the filters storage keeps the traces that they let through. -/
theorem keptOf_letsThrough (h : sq.Narrowable bounds)
    (hranked : IsRanking (recency (sq.queryWith [] bounds) sq.spans)
      (overlapping sq.engine sq.promoted (sq.queryWith [] bounds) sq.spans) ranked)
    (hids : packs.map StoredTrace.traceId = keptOf (sq.queryWith [] bounds) sq.spans ranked)
    (hcap : packs.length ≤ sq.limits.maxTraces) :
    keptOf (sq.queryWith filters bounds) sq.spans (ranked.filter (sq.letsThrough filters bounds)) =
      (packs.filter fun t => sq.letsThrough filters bounds t.traceId).map StoredTrace.traceId := by
  rw [keptOf_queryWith, keptOf_filter h.few hranked h.room (by rwa [← hids, length_map]), ← hids,
    filter_map]
  rfl

/-- An answer without the filters is one with them. -/
theorem executes_of_unfiltered (h : sq.Narrowable bounds) (hrun : sq.ExecutesWith [] bounds r) (hr : r = .ok ms) :
    sq.Executes bounds (.ok ms) := by
  rcases hrun with hplan | @⟨request, out, packs, hplan, hsearch, hfetch⟩
  · cases hr
  obtain rfl := plan_eq hplan
  obtain ⟨ranked, hranked, hids⟩ := exists_ranked (q := sq.queryWith [] bounds) hsearch
  have hcap := evaluated_cap hr
  have hbegan : ∀ id ∈ out.map TraceSummary.traceId, id ∈ sq.began bounds := fun id hid =>
    mem_qualifying_of_keptOf hranked (hids ▸ hid)
  obtain ⟨htraces, hget⟩ := (hfetch (length_map _ ▸ hcap)).get fun id hid =>
    spans_of_qualifies h.inRange (hbegan id hid)
  have hnodup := keptOf_nodup hranked
  rw [← hids] at hnodup
  rw [← htraces] at hr hbegan hids hcap hnodup
  replace hbegan : ∀ t ∈ packs, t.traceId ∈ sq.began bounds := fun t ht => hbegan _ (mem_map_of_mem ht)
  -- the engine ranks the traces that are let through, and fetches their spans, in the same order
  let keep := sq.letsThrough (candidateFilters sq.expr) bounds
  obtain ⟨out', hsearch', hids'⟩ := exists_searchResult (isRanking_queryWith.mpr (hranked.filter keep))
  rw [keptOf_letsThrough h hranked hids (length_map _ ▸ hcap)] at hids'
  have hmem : ∀ t ∈ packs.filter fun t => keep t.traceId, t ∈ packs := fun t ht => mem_of_mem_filter ht
  have hfetch' : sq.Fetches bounds.start _ _ := fetches_of_get (fun t ht => hget t (hmem t ht))
    (hnodup.sublist (filter_sublist.map _)) fun t ht s hs =>
      (spans_of_qualifies h.inRange (hbegan t (hmem t ht))).2 s
        ((getResult_iff.mp (hget t (hmem t ht))).2.1.mem_iff.mp hs)
  rw [← hids'] at hfetch'
  have hok := evaluated_filter h hget hbegan hr
  rw [filter_map] at hok
  have hrun' := @ExecutesWith.ran _ sq (candidateFilters sq.expr) bounds _ _ _ hplan hsearch' fun _ => hfetch'
  rw [hids'] at hrun'
  exact hok ▸ hrun'

variable (sq) in
/-- What `get` may give of a trace, that which is there already if it is. -/
def packOf (packs : List (StoredTrace reader)) (id : TraceId) : StoredTrace reader :=
  match packs.find? fun t => t.traceId = id with
  | some t => t
  | none => ⟨id, (spansOf sq.spans id).insertionSort fun a b => a.startTime ≤ b.startTime⟩

theorem packOf_traceId (id : TraceId) : (sq.packOf packs id).traceId = id := by
  unfold packOf
  split
  · rename_i hfind
    simpa using find?_some hfind
  · rfl

theorem packOf_get (hget : ∀ t ∈ packs, GetResult sq.spans t.traceId (some t)) {id : TraceId}
    (hid : spansOf sq.spans id ≠ []) : GetResult sq.spans (sq.packOf packs id).traceId (some (sq.packOf packs id)) := by
  unfold packOf
  split
  · rename_i hfind
    exact hget _ (mem_of_find?_eq_some hfind)
  · have hsorted := perm_insertionSort (fun a b => a.startTime ≤ b.startTime) (spansOf sq.spans id)
    refine getResult_iff.mpr ⟨fun hnil => hid ?_, hsorted, pairwise_insertionSort _ _⟩
    exact nil_perm.mp ((show [] = _ from hnil.symm) ▸ hsorted)

theorem packOf_mem (hnodup : (packs.map StoredTrace.traceId).Nodup) (ht : t ∈ packs) :
    sq.packOf packs t.traceId = t := by
  unfold packOf
  split
  · rename_i hfind
    exact inj_on_of_nodup_map hnodup (mem_of_find?_eq_some hfind) ht
      (by simpa using find?_some hfind)
  · rename_i hfind
    exact absurd (decide_eq_true rfl) (find?_eq_none.mp hfind t ht)

/-- Beside a result with the filters there is one without, which is an answer only if it is that one. -/
theorem exists_unfiltered (h : sq.Narrowable bounds) (hrun : sq.Executes bounds r) :
    ∃ r', sq.ExecutesWith [] bounds r' ∧ ∀ ms, r' = .ok ms → r = .ok ms := by
  rcases hrun with hplan | @⟨request, out, packs, hplan, hsearch, hfetch⟩
  · exact ⟨_, .refused hplan, fun ms hms => absurd hms (by simp)⟩
  obtain rfl := plan_eq hplan
  obtain ⟨ranked, hranked, hids⟩ := exists_ranked (q := sq.queryOf bounds) hsearch
  obtain ⟨full, hfull, rfl⟩ := (isRanking_queryWith.mp hranked).exists_extension
  obtain ⟨out', hsearch', hids'⟩ := exists_searchResult hfull
  have hbegan : ∀ id ∈ out'.map TraceSummary.traceId, id ∈ sq.began bounds := fun id hid =>
    mem_qualifying_of_keptOf hfull (hids' ▸ hid)
  have hfound (hcap : out.length ≤ sq.limits.maxTraces) := (hfetch hcap).get fun id hid =>
    spans_of_qualifies h.inRange (mem_qualifying_of_keptOf hranked (hids ▸ hid))
  -- what storage fetched of the candidates, it fetches again
  obtain ⟨fetched, hfetched, heq⟩ : ∃ fetched, (∀ t ∈ fetched, GetResult sq.spans t.traceId (some t)) ∧
      (out.length ≤ sq.limits.maxTraces → fetched = packs) := by
    by_cases hcap : out.length ≤ sq.limits.maxTraces
    · exact ⟨packs, (hfound hcap).2, fun _ => rfl⟩
    · exact ⟨[], by simp, fun h => absurd h hcap⟩
  let all := (out'.map TraceSummary.traceId).map (sq.packOf fetched)
  have hall : all.map StoredTrace.traceId = out'.map TraceSummary.traceId := by
    rw [map_map]
    exact (map_congr_left fun id _ => packOf_traceId id).trans (map_id _)
  have hget : ∀ t ∈ all, GetResult sq.spans t.traceId (some t) := by
    intro t ht
    obtain ⟨id, hid, rfl⟩ := mem_map.mp ht
    exact packOf_get hfetched (spans_of_qualifies h.inRange (hbegan id hid)).1
  have hbegan' : ∀ t ∈ all, t.traceId ∈ sq.began bounds := fun t ht => hbegan _ (hall ▸ mem_map_of_mem ht)
  have hnodup : (all.map StoredTrace.traceId).Nodup := by
    rw [hall, hids']
    exact keptOf_nodup hfull
  have hfetch' : sq.Fetches bounds.start _ _ := fetches_of_get hget hnodup fun t ht s hs =>
    (spans_of_qualifies h.inRange (hbegan' t ht)).2 s ((getResult_iff.mp (hget t ht)).2.1.mem_iff.mp hs)
  rw [hall] at hfetch'
  refine ⟨_, @ExecutesWith.ran _ sq [] bounds _ _ _ hplan hsearch' fun _ => hfetch', fun ms hms => ?_⟩
  rw [← hall] at hms
  have hcap := evaluated_cap hms
  have hok := evaluated_filter h hget hbegan' hms
  rw [filter_map] at hok
  rw [queryOf, keptOf_letsThrough h hfull (hall.trans hids') (length_map _ ▸ hcap)] at hids
  have hlen := congrArg List.length hids
  rw [length_map, length_map] at hlen
  have hcap' : out.length ≤ sq.limits.maxTraces :=
    hlen.trans_le ((length_filter_le _ _).trans (length_map _ ▸ hcap))
  obtain ⟨htraces, -⟩ := hfound hcap'
  have hsame : (all.filter fun t => sq.letsThrough (candidateFilters sq.expr) bounds t.traceId) = packs := by
    have hpacked : ∀ t ∈ all, sq.packOf packs t.traceId = t := by
      intro t ht
      obtain ⟨id, -, rfl⟩ := mem_map.mp ht
      rw [packOf_traceId, heq hcap']
    let kept := all.filter fun t => sq.letsThrough (candidateFilters sq.expr) bounds t.traceId
    have hkept : kept.map StoredTrace.traceId = packs.map StoredTrace.traceId := hids.symm.trans htraces.symm
    have hdistinct : (packs.map StoredTrace.traceId).Nodup := hkept ▸ hnodup.sublist (filter_sublist.map _)
    calc kept = kept.map fun t => sq.packOf packs t.traceId :=
          (map_id kept).symm.trans (map_congr_left fun t ht => (hpacked t (mem_of_mem_filter ht)).symm)
      _ = packs.map fun t => sq.packOf packs t.traceId := by
          have hpacks := congrArg (List.map (sq.packOf packs)) hkept
          rwa [map_map, map_map] at hpacks
      _ = packs := (map_congr_left fun t ht => packOf_mem hdistinct ht).trans (map_id packs)
  rw [hids]
  exact hsame ▸ hok

/-- Where the filters are exact on a trace, it has a result only with a span that they let through. Where they are
exact on the traces of a window and storage has room for the window without them, the query answers with them what it
may answer without, and nothing else where it answers without them. -/
theorem candidates_keep_matches (sq : StoredQuery reader) (bounds : TimeRange) :
    (∀ t : StoredTrace reader, (∀ s ∈ t.spans, reader.Agree s.attributes) → FiltersExact sq.expr t →
      ∀ ids, evalTraceReference sq.regex (semanticTrace t) sq.expr sq.limits = .ok (some ids) →
        ∃ s ∈ t.spans, (sq.queryOf bounds).matchesSpan sq.engine sq.promoted s = true) ∧
    (sq.Narrowable bounds →
      (∀ ms, sq.ExecutesWith [] bounds (.ok ms) → sq.Executes bounds (.ok ms)) ∧
      ∀ r, sq.Executes bounds r → ∃ r', sq.ExecutesWith [] bounds r' ∧ ∀ ms, r' = .ok ms → r = .ok ms) := by
  constructor
  · intro t hagree hexact ids hids
    exact exists_matchesSpan hagree hexact rfl hids
  · intro h
    exact ⟨fun ms hrun => executes_of_unfiltered h hrun rfl, fun r hrun => exists_unfiltered h hrun⟩

/-! ## Two traces of one span -/

/-- The attributes `{"k":"v"}`. -/
def oneAttribute : JsonReader := oneDocument "\x7b\"k\":\"v\"\x7d".toList [("k".toList, .str "v".toList)]

/-- A span without a parent. -/
def loneSpan (trace : UInt8) (start : ℤ) (attributes : Text) : StoredSpan oneAttribute where
  traceId := [trace]
  spanId := [7]
  parentSpanId := none
  name := "work".toList
  kind := "INTERNAL".toList
  startTime := start
  durationNs := 5
  statusCode := "UNSET".toList
  statusMessage := none
  service := none
  attributes := attributes
  resource := []
  scope := []
  events := none
  links := none
  promoted _ := none
  promoted_eq _ _ h := absurd h (by simp)

/-- Of the spans, that of the trace 1 has the attribute. -/
def twoSpans : List (StoredSpan oneAttribute) :=
  [loneSpan 1 10 "\x7b\"k\":\"v\"\x7d".toList, loneSpan 2 20 []]

def ofTwoSpans (expr : SpansetExpr) : StoredQuery oneAttribute where
  regex _ := none
  engine := noEngine
  promoted := []
  spans := twoSpans
  expr := expr
  limits := EvalLimits.default

/-- `{ span.k = value }`. -/
def attributeIs (value : Text) : SpansetExpr := .select (.attribute .span ['k'] .eq (.string value))

/-- The query for all traces from 0 to 100. -/
def everyInWindow : TraceQuery := buildTraceQuery ⟨⟨0, 100⟩, 10000, 100000, []⟩

/-- The traces, the most recent one first. -/
def twoPacks : List (StoredTrace oneAttribute) := twoSpans.reverse.map fun s => ⟨s.traceId, [s]⟩

/-- What the query on two spans answers without filters. -/
theorem twoSpans_unfiltered (expr : SpansetExpr)
    (h : (ofTwoSpans expr).evaluated ⟨⟨0, 100⟩, 10000, 100000, candidateFilters expr⟩ [[2], [1]] twoPacks = r) :
    (ofTwoSpans expr).ExecutesWith [] ⟨0, 100⟩ r := by
  have hplan : planTraceFetch ⟨0, 100⟩ (ofTwoSpans expr).limits expr =
      .ok ⟨⟨0, 100⟩, 10000, 100000, candidateFilters expr⟩ := rfl
  have hget : ∀ t ∈ twoPacks, GetResult twoSpans t.traceId (some t) := by
    intro t ht
    rcases mem_pair.mp ht with rfl | rfl
    · exact getResult_iff.mpr ⟨cons_ne_nil _ _, Perm.refl _, pairwise_singleton _ _⟩
    · exact getResult_iff.mpr ⟨cons_ne_nil _ _, Perm.refl _, pairwise_singleton _ _⟩
  have hnodup : (twoPacks.map StoredTrace.traceId).Nodup := by decide
  have hstart : ∀ t ∈ twoPacks, ∀ s ∈ t.spans, (0 : ℤ) ≤ s.startTime := by decide
  have hfetch : (ofTwoSpans expr).Fetches 0 [[2], [1]] twoPacks := fetches_of_get hget hnodup hstart
  have hranked : IsRanking (recency everyInWindow twoSpans) (overlapping noEngine [] everyInWindow twoSpans)
      [[2], [1]] := ⟨by decide +kernel, by decide +kernel⟩
  obtain ⟨out, hsearch, hids⟩ := exists_searchResult hranked
  have hkept : out.map TraceSummary.traceId = [[2], [1]] := hids.trans (by decide +kernel)
  have hrun := @ExecutesWith.ran _ (ofTwoSpans expr) [] ⟨0, 100⟩ _ out twoPacks hplan hsearch fun _ => by
    rw [hkept]
    exact hfetch
  rw [hkept] at hrun
  exact h ▸ hrun

theorem twoSpans_inRange : ∀ s ∈ twoSpans, s.InRange := by
  unfold StoredSpan.InRange
  decide

/-- The filters of an attribute keep the trace that matches it. -/
theorem candidates_keep_matches_twoSpans :
    (ofTwoSpans (attributeIs ['v'])).Executes ⟨0, 100⟩ (.ok [⟨"01".toList, 10, ["07".toList]⟩]) := by
  have hplain : ∀ s ∈ twoSpans, PlainAt s ['k'] := by
    intro s hs
    rcases mem_pair.mp hs with rfl | rfl
    · exact ⟨by decide, fun v hv => hv, fun vs hvs => absurd (Option.some.inj hvs) (by simp)⟩
    · exact ⟨by decide, fun v hv => (nomatch hv), fun vs hvs => (nomatch hvs)⟩
  have hnarrow : (ofTwoSpans (attributeIs ['v'])).Narrowable ⟨0, 100⟩ := by
    refine ⟨by decide, twoSpans_inRange, fun s _ => oneDocument_agree _ _ _, fun id _ => .inr ⟨rfl, ?_⟩, ?_⟩
    · intro s hs f hf
      rw [mem_singleton.mp hf]
      exact hplain s (mem_spansOf.mp hs).1
    · show Room _ _ everyInWindow.limit everyInWindow.fetchLimit (overlapping noEngine [] everyInWindow twoSpans)
      unfold Room
      decide +kernel
  exact ((candidates_keep_matches _ _).2 hnarrow).1 _ (twoSpans_unfiltered _ rfl)

/-- `{ span.k = "a" } !> { span.k = "v" }` selects the span, and the filters ask for one that has another value. -/
theorem negated_left_not_needed :
    let sq := ofTwoSpans (.structural (attributeIs ['a']) .notChild (attributeIs ['v']) false)
    (∃ t ∈ twoPacks, evalTraceReference sq.regex (semanticTrace t) sq.expr sq.limits = .ok (some ["07".toList]) ∧
      ¬ ∃ s ∈ t.spans, (sq.queryOf ⟨0, 100⟩).matchesSpan sq.engine sq.promoted s = true) ∧
      sq.ExecutesWith [] ⟨0, 100⟩ (.ok [⟨"01".toList, 10, ["07".toList]⟩]) ∧
      ¬ sq.Executes ⟨0, 100⟩ (.ok [⟨"01".toList, 10, ["07".toList]⟩]) := by
  refine ⟨⟨_, mem_of_getElem? (i := 1) rfl, rfl, by decide⟩, twoSpans_unfiltered _ rfl, fun hrun => ?_⟩
  obtain ⟨traces, htells⟩ := hrun.tells (by decide) twoSpans_inRange rfl
  have hnone : (ofTwoSpans (.structural (attributeIs ['a']) .notChild (attributeIs ['v']) false)).qualifies ⟨0, 100⟩ =
      [] := by
    decide +kernel
  have hempty : traces = [] := by
    apply eq_nil_iff_forall_not_mem.mpr
    intro t ht
    have hmem := htells.sound.2 t.traceId (mem_map_of_mem ht)
    rw [hnone] at hmem
    exact not_mem_nil hmem
  have htold := htells.told
  rw [hempty] at htold
  cases htold

end Imbh.Lgtm.StoredQuery
