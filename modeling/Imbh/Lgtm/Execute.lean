import Imbh.Lgtm.Candidates

/-!
# The evaluation of candidates (imbh-lgtm `traceql.rs`)
-/

namespace Imbh.Lgtm

open Lib Imbh.Core Traces

/-- Source: `traceql.rs` `TraceQueryMatch` -/
structure TraceQueryMatch where
  traceId : Text
  startTimeNs : ℤ
  spanset : List Text
  deriving DecidableEq

section

variable {reader : JsonReader} (regex : Text → Option (Text → Bool))

/-- Source: `traceql.rs` `execute_traceql`, the loop -/
def evalTraces (expr : SpansetExpr) (request : TraceFetchRequest) (limits : EvalLimits) :
    List (StoredTrace reader) → ℕ → Except SemanticError (List TraceQueryMatch)
  | [], _ => return []
  | t :: ts, spanCount =>
      if request.maxSpans < spanCount + t.spans.length then
        .error (.limitExceeded "TraceQL source spans".toList)
      else do
        let found ← evalTraceReference regex (semanticTrace t) expr limits
        let rest ← evalTraces expr request limits ts (spanCount + t.spans.length)
        match found with
        | some spanset =>
            return { traceId := toHex t.traceId, startTimeNs := t.startTime, spanset := spanset } :: rest
        | none => return rest

end

section

variable {reader : JsonReader} {regex : Text → Option (Text → Bool)} {engine : SqlEngine}
  {promoted : List Text} {expr : SpansetExpr} {limits : EvalLimits}

/-- The filters of the expression are exact on the trace: there are none, or the sides from which they
are taken are needed and the pushed attributes of all spans are plain. -/
def FiltersExact (expr : SpansetExpr) (t : StoredTrace reader) : Prop :=
  candidateFilters expr = [] ∨
    sidesNeeded expr = true ∧ ∀ s ∈ t.spans, ∀ f ∈ candidateFilters expr, f.Plain s

/-- A trace with a result has a span that the query asks for. -/
theorem exists_matchesSpan {t : StoredTrace reader} (hagree : ∀ s ∈ t.spans, reader.Agree s.attributes)
    (hexact : FiltersExact expr t) {request : TraceFetchRequest}
    (hreq : request.candidate = candidateFilters expr) {ids : List Text}
    (h : evalTraceReference regex (semanticTrace t) expr limits = .ok (some ids)) :
    ∃ s ∈ t.spans, (buildTraceQuery request).matchesSpan engine promoted s = true := by
  unfold evalTraceReference at h
  split at h
  · exact absurd h (by simp)
  · split at h
    · obtain ⟨out, hout, h⟩ := bind_eq_ok.mp h
      have hne : out ≠ [] := by
        intro hnil
        have hnone : (none : Option (List Text)) = some ids :=
          (if_pos hnil).symm.trans (Except.ok.inj h)
        exact absurd hnone (by simp)
      by_cases hfilters : candidateFilters expr = []
      · have hspans : t.spans ≠ [] := by
          intro hnil
          apply hne
          have hempty : eval regex [] (some (semanticTrace t)) limits expr 0 = .ok out := by
            rw [← hout, semanticTrace, hnil]
            rfl
          exact eval_nil hempty
        obtain ⟨s, hs⟩ := List.exists_mem_of_ne_nil _ hspans
        refine ⟨s, hs, matchesSpan_buildTraceQuery ?_⟩
        intro f hf
        rw [hreq, hfilters] at hf
        exact absurd hf List.not_mem_nil
      · obtain ⟨hneeded, hplain⟩ := hexact.resolve_left hfilters
        obtain ⟨p, hp, semantic, hsemantic, hmatch⟩ := eval_leaf hfilters hneeded hout hne
        obtain ⟨s, hs, rfl⟩ := List.mem_map.mp hsemantic
        refine ⟨s, hs, matchesSpan_buildTraceQuery ?_⟩
        intro f hf
        rw [hreq, ← hp] at hf
        apply filter_holds (hagree s hs) p hmatch _ f hf
        intro f' hf'
        exact hplain s hs f' (hp ▸ hf')
    · exact absurd h (by simp)

/-- Traces without a result may be left out. -/
theorem evalTraces_filter {request request' : TraceFetchRequest}
    (hspans : request'.maxSpans = request.maxSpans) {keep : StoredTrace reader → Bool}
    {l : List (StoredTrace reader)} {n n' : ℕ} {ms : List TraceQueryMatch} (hn : n' ≤ n)
    (hkeep : ∀ t ∈ l, ∀ ids, evalTraceReference regex (semanticTrace t) expr limits = .ok (some ids) →
      keep t = true)
    (h : evalTraces regex expr request limits l n = .ok ms) :
    evalTraces regex expr request' limits (l.filter keep) n' = .ok ms := by
  induction l generalizing n n' ms with
  | nil => exact h
  | cons t l ih =>
    unfold evalTraces at h
    split at h
    · exact absurd h (by simp)
    · rename_i hmax
      obtain ⟨found, hfound, h⟩ := bind_eq_ok.mp h
      obtain ⟨rest, hrest, h⟩ := bind_eq_ok.mp h
      have hkeep' := fun t' ht' => hkeep t' (List.mem_cons_of_mem t ht')
      by_cases hk : keep t = true
      · rw [List.filter_cons_of_pos hk]
        have hcount : ¬ request'.maxSpans < n' + t.spans.length := by omega
        have hrest' := ih (Nat.add_le_add_right hn t.spans.length) hkeep' hrest
        unfold evalTraces
        rw [if_neg hcount, hfound]
        change (evalTraces regex expr request' limits (l.filter keep) (n' + t.spans.length) >>= _) = _
        rw [hrest']
        exact h
      · rw [List.filter_cons_of_neg hk]
        rcases found with _ | ids
        · rw [← h]
          exact ih (hn.trans (Nat.le_add_right _ _)) hkeep' hrest
        · exact absurd (hkeep t List.mem_cons_self ids hfound) hk

end

/-- A reader of one document. -/
def oneDocument (text : Text) (members : List (Text × Json)) : JsonReader where
  document input := if input = text then some (.map members) else none
  members input := if input = text then some (members.map fun kv => (kv.1, some kv.2)) else none

theorem oneDocument_agree (text : Text) (members : List (Text × Json)) (input : Text) :
    (oneDocument text members).Agree input := by
  intro ms hms
  unfold oneDocument at hms ⊢
  dsimp only at hms ⊢
  split at hms
  · rename_i h
    exact ⟨members, if_pos h, (Option.some.inj hms).symm⟩
  · exact absurd hms (by simp)

end Imbh.Lgtm
