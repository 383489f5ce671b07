import Imbh.Lgtm.TraceQl

/-!
# Structural operators

A structural operator selects the spans of its right side that stand in its relation to a span of its left
side. The relations are those of the parent links: a parent may be missing from the spans.

* `structural_means` — an answer is what the relation selects; there is one unless the links have a cycle.
-/

namespace Imbh.Lgtm

open Lib (bind_eq_ok)
open Traces (SpanId)
open Relation (TransGen ReflTransGen)

open List Option

/-! ## Relations -/

section

variable (spans : List SemanticSpan)

/-- The span of `s` has the parent `p`. -/
def ParentOf (p s : SpanId) : Prop := ∃ span ∈ spans, span.spanId = s ∧ span.parentSpanId = some p

/-- `p` is a proper transitive parent of `s`. -/
def Above (p s : SpanId) : Prop := TransGen (ParentOf spans) p s

/-- No span is above itself. -/
def AcyclicLinks : Prop := ∀ s, ¬Above spans s s

/-- How a span of the right side stands to one of the left side. -/
def Relates (l r : SpanId) : StructuralOp → Prop
  | .child | .notChild => ParentOf spans l r
  | .parent | .notParent => ParentOf spans r l
  | .descendant | .notDescendant => Above spans l r
  | .ancestor | .notAncestor => Above spans r l
  | .sibling | .notSibling => l ≠ r ∧ ∃ p, ParentOf spans p l ∧ ParentOf spans p r

/-- The span stands in the relation to one of the left side, or to none where the operator is negated. -/
def SelectedBy (left : IdSet) (op : StructuralOp) (r : SpanId) : Prop :=
  if op.positive.2 then ¬∃ l ∈ left, Relates spans l r op else ∃ l ∈ left, Relates spans l r op

end

def cycleError : SemanticError := .malformed "cycle in span parent relationships".toList

variable {spans : List SemanticSpan} {span : SemanticSpan}

/-! ## Spans of ids -/

theorem findSpan_eq_some {id : SpanId} (h : findSpan spans id = some span) : span ∈ spans ∧ span.spanId = id := by
  have hid : span.spanId = id := by simpa using find?_some h
  exact ⟨mem_reverse.mp (mem_of_find?_eq_some h), hid⟩

theorem findSpan_eq_none {id : SpanId} (h : findSpan spans id = none) : ∀ span ∈ spans, span.spanId ≠ id := by
  intro span hspan hid
  exact find?_eq_none.mp h span (mem_reverse.mpr hspan) (decide_eq_true hid)

section

variable (hids : (spans.map SemanticSpan.spanId).Nodup) {e : SemanticError} {left ancestors : IdSet}
  {op : StructuralOp}

include hids

/-- The span of an id has the parents of the id. -/
theorem parentOf_iff {id : SpanId} (h : findSpan spans id = some span) {p : SpanId} :
    ParentOf spans p id ↔ span.parentSpanId = some p := by
  obtain ⟨hspan, hid⟩ := findSpan_eq_some h
  constructor
  · rintro ⟨span', hspan', hid', hparent⟩
    have heq : span' = span := inj_on_of_nodup_map hids hspan' hspan (hid'.trans hid.symm)
    rw [← heq]
    exact hparent
  · intro hparent
    exact ⟨span, hspan, hid, hparent⟩

theorem parentOf_iff_bind {p id : SpanId} :
    ParentOf spans p id ↔ (findSpan spans id).bind SemanticSpan.parentSpanId = some p := by
  rcases h : findSpan spans id with _ | span
  · refine iff_of_false ?_ fun hnone => nomatch hnone
    rintro ⟨span, hspan, hid, -⟩
    exact findSpan_eq_none h span hspan hid
  · exact parentOf_iff hids h

/-! ## Walks -/

/-- An answer of a walk says whether one of the ancestors is the parent or above it. -/
theorem hasAncestorFrom_ok {seen : List SpanId} {parent : Option SpanId} {b : Bool}
    (h : hasAncestorFrom spans ancestors seen parent = .ok b) :
    b = true ↔ ∃ a ∈ ancestors, ∃ p, parent = some p ∧ ReflTransGen (ParentOf spans) a p := by
  fun_induction hasAncestorFrom spans ancestors seen parent with
  | case1 =>
    rw [← Except.ok.inj h]
    refine iff_of_false Bool.false_ne_true ?_
    rintro ⟨_, _, _, hnone, _⟩
    cases hnone
  | case2 => cases h
  | case3 seen id _ hid =>
    rw [← Except.ok.inj h]
    exact iff_of_true rfl ⟨id, hid, id, rfl, .refl⟩
  | case4 seen id _ hid hspan =>
    rw [← Except.ok.inj h]
    refine iff_of_false Bool.false_ne_true ?_
    rintro ⟨a, ha, p, hp, hpath⟩
    obtain rfl := some.inj hp
    -- a path to an id without a span begins at it
    rcases hpath.cases_tail with rfl | ⟨q, -, span, hmem, hspanId, -⟩
    · exact hid ha
    · exact findSpan_eq_none hspan span hmem hspanId
  | case5 seen id _ hid span hspan ih =>
    rw [ih h]
    constructor
    · rintro ⟨a, ha, q, hq, hpath⟩
      exact ⟨a, ha, id, rfl, hpath.tail ((parentOf_iff hids hspan).mpr hq)⟩
    · rintro ⟨a, ha, p, hp, hpath⟩
      obtain rfl := some.inj hp
      rcases hpath.cases_tail with rfl | ⟨q, hpath, hq⟩
      · exact absurd ha hid
      · exact ⟨a, ha, q, (parentOf_iff hids hspan).mp hq, hpath⟩

/-- A walk that fails has met a cycle: what it has seen is below where it is. -/
theorem hasAncestorFrom_error {seen : List SpanId} {parent : Option SpanId}
    (h : hasAncestorFrom spans ancestors seen parent = .error e)
    (hseen : ∀ x ∈ seen, ∀ p, parent = some p → Above spans p x) : e = cycleError ∧ ¬AcyclicLinks spans := by
  fun_induction hasAncestorFrom spans ancestors seen parent with
  | case1 => cases h
  | case2 seen id hid =>
    refine ⟨(Except.error.inj h).symm, fun hacyclic => ?_⟩
    exact hacyclic id (hseen id hid id rfl)
  | case3 => cases h
  | case4 => cases h
  | case5 seen id _ hid span hspan ih =>
    apply ih h
    intro x hx p hp
    have hparent : ParentOf spans p id := (parentOf_iff hids hspan).mpr hp
    rcases mem_cons.mp hx with rfl | hx
    · exact .single hparent
    · exact TransGen.head hparent (hseen x hx id rfl)

/-- An answer for a span says whether one of the ancestors is above it. -/
theorem hasAncestor_ok {id : SpanId} {b : Bool} (hspan : findSpan spans id = some span)
    (h : hasAncestor spans span ancestors = .ok b) : b = true ↔ ∃ a ∈ ancestors, Above spans a id := by
  rw [hasAncestorFrom_ok hids h]
  apply exists_congr
  intro a
  apply and_congr_right
  intro _
  rw [Above, TransGen.tail'_iff]
  apply exists_congr
  intro p
  rw [parentOf_iff hids hspan, and_comm]

theorem hasAncestor_error (h : hasAncestor spans span ancestors = .error e) : e = cycleError ∧ ¬AcyclicLinks spans :=
  hasAncestorFrom_error hids h fun _ hx => absurd hx not_mem_nil

/-- An answer for the left side says whether the span is above one of it. -/
theorem anyHasAncestor_ok {r : SpanId} {b : Bool} (h : anyHasAncestor spans r left = .ok b) :
    b = true ↔ ∃ l ∈ left, Above spans r l := by
  induction left with
  | nil =>
    rw [← Except.ok.inj h]
    exact iff_of_false Bool.false_ne_true fun ⟨_, hl, _⟩ => absurd hl not_mem_nil
  | cons id left ih =>
    rw [exists_mem_cons_iff]
    unfold anyHasAncestor at h
    split at h
    · rename_i hspan
      rw [ih h]
      have hnot : ¬Above spans r id := by
        intro habove
        obtain ⟨_, -, span, hmem, hid, -⟩ := TransGen.tail'_iff.mp habove
        exact findSpan_eq_none hspan span hmem hid
      exact (or_iff_right hnot).symm
    · rename_i span hspan
      obtain ⟨found, hfound, h⟩ := bind_eq_ok.mp h
      have hone := hasAncestor_ok hids hspan hfound
      have hsingle : (∃ a ∈ ([r] : IdSet), Above spans a id) ↔ Above spans r id := by
        rw [exists_mem_cons_iff]
        exact or_iff_left fun ⟨_, ha, _⟩ => absurd ha not_mem_nil
      rw [hsingle] at hone
      rcases found with _ | _
      · rw [ih h]
        exact (or_iff_right fun habove => Bool.false_ne_true (hone.mpr habove)).symm
      · rw [← Except.ok.inj h]
        exact iff_of_true rfl (.inl (hone.mp rfl))

/-- Only a cycle is an error. -/
theorem anyHasAncestor_error {r : SpanId} (h : anyHasAncestor spans r left = .error e) :
    e = cycleError ∧ ¬AcyclicLinks spans := by
  induction left with
  | nil => exact nomatch h
  | cons id left ih =>
    unfold anyHasAncestor at h
    split at h
    · exact ih h
    · rename_i span _
      rcases hfound : hasAncestor spans span [r] with e' | found
      · rw [hfound] at h
        rw [← Except.error.inj h]
        exact hasAncestor_error hids hfound
      · rw [hfound] at h
        rcases found with _ | _
        · exact ih h
        · exact nomatch h

/-! ## Operators -/

/-- An answer for a span of the right side says whether it is related to one of the left side. -/
theorem related_ok {r : SpanId} {candidate : SemanticSpan} {b : Bool} (hspan : findSpan spans r = some candidate)
    (h : related spans left op.positive.1 r candidate = .ok b) : b = true ↔ ∃ l ∈ left, Relates spans l r op := by
  have hchild : (candidate.parentSpanId.any fun parent => parent ∈ left) = true ↔
      ∃ l ∈ left, ParentOf spans l r := by
    rw [Option.any_eq_true]
    constructor
    · rintro ⟨p, hp, hl⟩
      exact ⟨p, of_decide_eq_true hl, (parentOf_iff hids hspan).mpr hp⟩
    · rintro ⟨l, hl, hparent⟩
      exact ⟨l, (parentOf_iff hids hspan).mp hparent, decide_eq_true hl⟩
  have hparent : (left.any fun leftId =>
      ((findSpan spans leftId).bind SemanticSpan.parentSpanId) = some r) = true ↔
        ∃ l ∈ left, ParentOf spans r l := by
    rw [List.any_eq_true]
    apply exists_congr
    intro l
    rw [decide_eq_true_iff, parentOf_iff_bind hids]
  have hsibling : (candidate.parentSpanId.any fun parent => left.any fun leftId =>
      leftId ≠ r ∧ ((findSpan spans leftId).bind SemanticSpan.parentSpanId) = some parent) = true ↔
        ∃ l ∈ left, l ≠ r ∧ ∃ p, ParentOf spans p l ∧ ParentOf spans p r := by
    rw [Option.any_eq_true]
    constructor
    · rintro ⟨p, hp, hany⟩
      obtain ⟨l, hl, hd⟩ := List.any_eq_true.mp hany
      obtain ⟨hne, hbind⟩ := of_decide_eq_true hd
      exact ⟨l, hl, hne, p, (parentOf_iff_bind hids).mpr hbind, (parentOf_iff hids hspan).mpr hp⟩
    · rintro ⟨l, hl, hne, p, hleft, hright⟩
      refine ⟨p, (parentOf_iff hids hspan).mp hright, List.any_eq_true.mpr ⟨l, hl, ?_⟩⟩
      exact decide_eq_true ⟨hne, (parentOf_iff_bind hids).mp hleft⟩
  cases op with
  | child | notChild => exact (Except.ok.inj h) ▸ hchild
  | parent | notParent => exact (Except.ok.inj h) ▸ hparent
  | descendant | notDescendant => exact hasAncestor_ok hids hspan h
  | ancestor | notAncestor => exact anyHasAncestor_ok hids h
  | sibling | notSibling => exact (Except.ok.inj h) ▸ hsibling

theorem related_error {r : SpanId} {candidate : SemanticSpan}
    (h : related spans left op.positive.1 r candidate = .error e) : e = cycleError ∧ ¬AcyclicLinks spans := by
  cases op with
  | descendant | notDescendant => exact hasAncestor_error hids h
  | ancestor | notAncestor => exact anyHasAncestor_error hids h
  | _ => exact nomatch h

/-- An answer has the spans of the right side that are selected. -/
theorem structural_ok {right out : IdSet} (hright : ∀ r ∈ right, r ∈ spans.map SemanticSpan.spanId)
    (h : structural spans left op right = .ok out) {r : SpanId} :
    r ∈ out ↔ r ∈ right ∧ SelectedBy spans left op r := by
  induction right generalizing out with
  | nil =>
    rw [← Except.ok.inj h]
    exact iff_of_false not_mem_nil fun hr => absurd hr.1 not_mem_nil
  | cons rightId right ih =>
    have hrest : ∀ r ∈ right, r ∈ spans.map SemanticSpan.spanId := fun r hr =>
      hright r (mem_cons_of_mem _ hr)
    unfold structural at h
    split at h
    · rename_i hspan
      obtain ⟨span, hmem, hid⟩ := mem_map.mp (hright rightId mem_cons_self)
      exact absurd hid (findSpan_eq_none hspan span hmem)
    · rename_i candidate hspan
      obtain ⟨matched, hmatched, h⟩ := bind_eq_ok.mp h
      obtain ⟨rest, hout, h⟩ := bind_eq_ok.mp h
      have hone := related_ok hids hspan hmatched
      have hselected : (if op.positive.2 then !matched else matched) = true ↔ SelectedBy spans left op rightId := by
        unfold SelectedBy
        split
        · rw [Bool.not_eq_true', ← Bool.not_eq_true, hone]
        · exact hone
      rw [← Except.ok.inj h]
      by_cases hkeep : (if op.positive.2 then !matched else matched) = true
      · rw [if_pos hkeep, mem_cons, mem_cons, ih hrest hout, or_and_right]
        have hself : r = rightId → SelectedBy spans left op r := by
          rintro rfl
          exact hselected.mp hkeep
        rw [and_iff_left_of_imp hself]
      · rw [if_neg hkeep, mem_cons, ih hrest hout, or_and_right]
        have hnot : ¬(r = rightId ∧ SelectedBy spans left op r) := by
          rintro ⟨rfl, hr⟩
          exact hkeep (hselected.mpr hr)
        rw [or_iff_right hnot]

/-- A structural operator fails only on a cycle. -/
theorem structural_error {right : IdSet} (h : structural spans left op right = .error e) :
    e = cycleError ∧ ¬AcyclicLinks spans := by
  induction right with
  | nil => exact nomatch h
  | cons rightId right ih =>
    unfold structural at h
    split at h
    · exact ih h
    · rename_i candidate _
      rcases hmatched : related spans left op.positive.1 rightId candidate with e' | matched
      · rw [hmatched] at h
        rw [← Except.error.inj h]
        exact related_error hids hmatched
      · rcases hrest : structural spans left op right with e' | rest
        · rw [hmatched, hrest] at h
          exact ih (hrest.trans (congrArg Except.error (Except.error.inj h)))
        · rw [hmatched, hrest] at h
          exact nomatch h

end

/-- An answer has those spans of the right side that stand in the relation to one of the left side, or the rest
of them where the operator is negated; and there is an answer, or else the links have a cycle and the error says
so. -/
theorem structural_means {spans : List SemanticSpan} (hids : (spans.map SemanticSpan.spanId).Nodup)
    (left : IdSet) (op : StructuralOp) {right : IdSet}
    (hright : ∀ r ∈ right, r ∈ spans.map SemanticSpan.spanId) :
    (AcyclicLinks spans → ∃ out, structural spans left op right = .ok out) ∧
      (∀ out, structural spans left op right = .ok out →
        ∀ r, r ∈ out ↔ r ∈ right ∧ SelectedBy spans left op r) ∧
      ∀ e, structural spans left op right = .error e → e = cycleError ∧ ¬AcyclicLinks spans := by
  refine ⟨fun hacyclic => ?_, fun out h r => structural_ok hids hright h, fun e h => structural_error hids h⟩
  rcases h : structural spans left op right with e | out
  · exact absurd hacyclic (structural_error hids h).2
  · exact ⟨out, rfl⟩

/-- A span of a parent, as a span of a trace that has nothing else. -/
def bareSpan (id : SpanId) (parent : Option SpanId) : SemanticSpan where
  spanId := id
  parentSpanId := parent
  name := []
  status := []
  statusMessage := none
  kind := []
  service := none
  startTimeNs := 0
  durationNs := 0
  attributes := []
  resource := []
  instrumentation := []
  events := []
  links := []

/-- A root with its child and the child of that one, and a second root. -/
def twoTrees : List SemanticSpan :=
  [bareSpan [1] none, bareSpan [2] (some [1]), bareSpan [3] (some [2]), bareSpan [4] none]

/-- What is below the first root by any number of links. -/
theorem structural_descendant :
    ∃ out, structural twoTrees [[1]] .descendant [[1], [2], [3], [4]] = .ok out ∧ out = [[2], [3]] ∧
      ∀ r, r ∈ out ↔ r ∈ ([[1], [2], [3], [4]] : IdSet) ∧ SelectedBy twoTrees [[1]] .descendant r := by
  have hout : structural twoTrees [[1]] .descendant [[1], [2], [3], [4]] = .ok [[2], [3]] := by decide +kernel
  exact ⟨[[2], [3]], hout, rfl, (structural_means (by decide) [[1]] .descendant (by decide)).2.1 _ hout⟩

end Imbh.Lgtm
