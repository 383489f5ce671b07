import Imbh.Query.RowGroups
import Imbh.Query.TextIndex

/-!
# Pushing filters down to the index

The provider takes search terms from the filters `matches(text, '…')`, terms to exclude from their
negations, and probes from the equalities `json_get_str(attributes, '…') = '…'`. A segment's index is
searched for all of them, and if it finds few enough rows only these are read.

* `selections_exact` — the rows of a selection are the hits, those of an intersection the hits of both.
* `selection_keeps_iff` — when no row that makes all filters TRUE is lost.
-/

namespace Imbh.Query

open Lib Imbh.Core List Option

/-! ## The functions of the engine -/

section

variable (reader : JsonReader) (table : CharTable)

/-- Source: imbh-query `matches_impl` -/
def matchesImpl (rest : Rest) : List ScalarValue → ScalarValue
  | [.utf8 text, .utf8 (some query)] => .boolean (text.map fun s => matchesTerms table s query)
  | [.utf8 text, .utf8 none] => .boolean (text.map fun _ => false)
  | args => rest.function "matches".toList args

/-- Source: imbh-query `json_get_str_impl` -/
def jsonGetStrImpl (rest : Rest) : List ScalarValue → ScalarValue
  | [.utf8 json, .utf8 (some key)] => .utf8 (json.bind fun s => jsonGetStr reader s key)
  | [.utf8 _, .utf8 none] => .utf8 none
  | args => rest.function "json_get_str".toList args

/-- The functions that the engine registers, among the others.
Source: imbh-query `matches_udf`, `json_get_str_udf` -/
def withUdfs (rest : Rest) : Rest :=
  { rest with
    function := fun name args =>
      if name = "matches".toList then matchesImpl table rest args
      else if name = "json_get_str".toList then jsonGetStrImpl reader rest args
      else rest.function name args }

/-! ## What is pushed down -/

/-- Source: `provider.rs` `utf8_literal` -/
def utf8Literal : Expr → Option Text
  | .literal (.utf8 (some s)) => some s
  | _ => none

/-- Source: `provider.rs` `matches_text_terms` -/
def matchesTextTerms (textColumn : Option Text) : Expr → Option (List Text)
  | .scalarFunction name [.column c, query] =>
      if name = "matches".toList ∧ textColumn = some c then (utf8Literal query).map (tokenize table)
      else none
  | _ => none

/-- Source: `provider.rs` `not_matches_text_terms` -/
def notMatchesTextTerms (textColumn : Option Text) : Expr → Option (List Text)
  | .not inner => matchesTextTerms table textColumn inner
  | _ => none

/-- Source: `provider.rs` `json_get_str_attr_key` -/
def jsonGetStrAttrKey : Expr → Option Text
  | .scalarFunction name [.column c, key] =>
      if name = "json_get_str".toList ∧ c = "attributes".toList then utf8Literal key else none
  | _ => none

/-- Source: `provider.rs` `attr_eq_sides` -/
def attrEqSides (fnSide litSide : Expr) : Option (Text × Text) := do
  let key ← jsonGetStrAttrKey fnSide
  let value ← utf8Literal litSide
  pure (key, value)

/-- Source: `provider.rs` `attr_eq_predicate` -/
def attrEqPredicate : Expr → Option (Text × Text)
  | .binary left .eq right => (attrEqSides left right).or (attrEqSides right left)
  | _ => none

/-- Sort and remove duplicates. -/
def sortTerms (terms : List Text) : List Text := dedupSorted (terms.insertionSort (· ≤ ·))

/-- What a scan pushes down. -/
structure IndexTerms where
  terms : List Text
  notTerms : List Text
  attrProbes : List (Text × Text)

/-- Source: `provider.rs` `SegmentTableProvider::scan` -/
def indexTerms (textColumn : Option Text) (filters : List Expr) : IndexTerms where
  terms := sortTerms (filters.flatMap fun f => (matchesTextTerms table textColumn f).getD [])
  notTerms := sortTerms (filters.flatMap fun f => (notMatchesTextTerms table textColumn f).getD [])
  attrProbes := if textColumn.isSome then filters.filterMap attrEqPredicate else []

end

/-! ## The selection -/

/-- A skip from the cursor to a row, if there are rows between. -/
def skipTo (cursor row : ℕ) : RowSelection :=
  if cursor < row then [{ rowCount := row - cursor, skip := true }] else []

/-- The selectors from the run of hits that began at `start` and has come to `last`. -/
def selectorsFrom (total start last : ℕ) : List ℕ → RowSelection
  | [] => { rowCount := last - start + 1, skip := false } :: skipTo (last + 1) total
  | hit :: hits =>
      if hit = last + 1 then selectorsFrom total start hit hits
      else
        { rowCount := last - start + 1, skip := false } ::
          (skipTo (last + 1) hit ++ selectorsFrom total hit hit hits)

/-- Source: `provider.rs` `row_selection_from_sorted` -/
def rowSelectionFromSorted (sortedHits : List ℕ) (total : ℕ) : RowSelection :=
  match sortedHits with
  | [] => skipTo 0 total
  | hit :: hits => skipTo 0 hit ++ selectorsFrom total hit hit hits

/-- Source: `provider.rs` `intersect_sorted` -/
def intersectSorted : List ℕ → List ℕ → List ℕ
  | [], _ => []
  | _, [] => []
  | a :: as, b :: bs =>
      if a < b then intersectSorted as (b :: bs)
      else if b < a then intersectSorted (a :: as) bs
      else a :: intersectSorted as bs
  termination_by as bs => as.length + bs.length

/-- A segment for the scan: the rows its manifest entry counts, and its index.
Source: `provider.rs` `SegmentInput` -/
structure SegmentInput where
  rows : ℕ
  index : Option (List Document)

/-- The cost gate: fewer hits than half of the rows, as doubles.
Source: `provider.rs` `SELECTIVITY_THRESHOLD` -/
def selective (hits rows : ℕ) : Bool := 2 * roundSig hits < roundSig rows

/-- Source: `provider.rs` `row_selection_for`, its hits -/
def indexHits (index : List Document) (pushed : IndexTerms) : List ℕ :=
  let hits :=
    if pushed.terms ≠ [] ∨ pushed.notTerms ≠ [] then
      some (searchBodyBool index pushed.terms pushed.notTerms)
    else none
  let hits := pushed.attrProbes.foldl (fun hits probe =>
    let attrHits := searchAttrEq index probe.1 probe.2
    match hits with
    | some h => some (intersectSorted h attrHits)
    | none => some attrHits) hits
  hits.getD []

/-- Source: `provider.rs` `row_selection_for` -/
def rowSelectionFor (seg : SegmentInput) (pushed : IndexTerms) : Option RowSelection :=
  if seg.rows = 0 then none
  else if pushed.terms = [] ∧ pushed.notTerms = [] ∧ pushed.attrProbes = [] then none
  else
    match seg.index with
    | none => none
    | some index =>
        let hits := indexHits index pushed
        if hits.getLast?.any fun h => seg.rows ≤ h then none
        else if selective hits.length seg.rows then some (rowSelectionFromSorted hits seg.rows)
        else none

/-! ### Its rows -/

/-- The values of a predicate between two rows. -/
def mask (p : ℕ → Bool) (a b : ℕ) : List Bool := (List.range' a (b - a)).map p

theorem mask_append (p : ℕ → Bool) {a m b : ℕ} (ham : a ≤ m) (hmb : m ≤ b) :
    mask p a b = mask p a m ++ mask p m b := by
  have hsum : b - a = (m - a) + (b - m) := by omega
  have hm : m = a + 1 * (m - a) := by omega
  rw [mask, hsum, ← List.range'_append, map_append, ← hm]
  rfl

theorem mask_const {p : ℕ → Bool} {a b : ℕ} {c : Bool} (h : ∀ i, a ≤ i → i < b → p i = c) :
    mask p a b = List.replicate (b - a) c := by
  refine eq_replicate_iff.mpr ⟨by rw [mask, length_map, length_range'], ?_⟩
  intro x hx
  obtain ⟨i, hi, rfl⟩ := mem_map.mp hx
  obtain ⟨hai, hib⟩ := mem_range'_1.mp hi
  exact h i hai (by omega)

theorem mask_congr {p q : ℕ → Bool} {a b : ℕ} (h : ∀ i, a ≤ i → p i = q i) :
    mask p a b = mask q a b :=
  map_congr_left fun i hi => h i (mem_range'_1.mp hi).1

theorem selected_cons (s : RowSelector) (sel : RowSelection) :
    selected (s :: sel) = List.replicate s.rowCount (!s.skip) ++ selected sel :=
  flatMap_cons

theorem selected_append (a b : RowSelection) : selected (a ++ b) = selected a ++ selected b :=
  flatMap_append

theorem selected_skipTo (a b : ℕ) : selected (skipTo a b) = List.replicate (b - a) false := by
  unfold skipTo
  split
  · rw [selected_cons]
    exact append_nil _
  · rw [Nat.sub_eq_zero_of_le (by omega)]
    rfl

/-- The run that has come to `last`, and the hits after it. -/
theorem selected_selectorsFrom {total : ℕ} : ∀ (hits : List ℕ) {start last : ℕ}, start ≤ last →
    last < total → (last :: hits).Pairwise (· < ·) → (∀ h ∈ hits, h < total) →
      selected (selectorsFrom total start last hits) =
        mask (fun i => decide (i ≤ last ∨ i ∈ hits)) start total
  | [], start, last, hle, hlt, _, _ => by
      rw [selectorsFrom, selected_cons, selected_skipTo,
        mask_append _ (Nat.le_succ_of_le hle) hlt, mask_const (c := true), mask_const (c := false),
        Nat.succ_sub hle]
      · rfl
      · intro i hi _
        exact decide_eq_false fun h => h.elim (Nat.not_le.mpr hi) not_mem_nil
      · intro i _ hi
        exact decide_eq_true (Or.inl (Nat.lt_succ_iff.mp hi))
  | hit :: hits, start, last, hle, hlt, hsorted, hbound => by
      obtain ⟨hafter, hsorted'⟩ := pairwise_cons.mp hsorted
      have hlast : last < hit := hafter hit mem_cons_self
      have hhit : hit < total := hbound hit mem_cons_self
      have hbound' : ∀ h ∈ hits, h < total := fun h hh => hbound h (mem_cons_of_mem _ hh)
      have hmore : ∀ i ∈ hits, hit < i := (pairwise_cons.mp hsorted').1
      rw [selectorsFrom]
      split
      · rename_i hnext
        rw [selected_selectorsFrom hits (hle.trans hlast.le) hhit hsorted' hbound']
        apply mask_congr
        intro i _
        rw [Bool.eq_iff_iff, decide_eq_true_iff, decide_eq_true_iff, mem_cons]
        constructor
        · rintro (h | h)
          · rcases Nat.lt_or_eq_of_le h with h | h
            · exact Or.inl (by omega)
            · exact Or.inr (Or.inl h)
          · exact Or.inr (Or.inr h)
        · rintro (h | h | h)
          · exact Or.inl (by omega)
          · exact Or.inl h.le
          · exact Or.inr h
      · rename_i hgap
        have hgap' : last + 1 ≤ hit := hlast
        rw [selected_cons, selected_append, selected_skipTo,
          selected_selectorsFrom hits le_rfl hhit hsorted' hbound',
          mask_append _ (Nat.le_succ_of_le hle) (hgap'.trans hhit.le), mask_append _ hgap' hhit.le]
        congr 1
        · rw [mask_const (c := true), Nat.succ_sub hle]
          · rfl
          · intro i _ hi
            exact decide_eq_true (Or.inl (Nat.lt_succ_iff.mp hi))
        · congr 1
          · rw [mask_const (c := false)]
            intro i hi hi'
            refine decide_eq_false fun h => ?_
            rcases h with h | h
            · omega
            · rcases mem_cons.mp h with h | h
              · omega
              · exact absurd (hmore i h) (by omega)
          · apply mask_congr
            intro i hi
            rw [Bool.eq_iff_iff, decide_eq_true_iff, decide_eq_true_iff, mem_cons]
            constructor
            · rintro (h | h)
              · exact Or.inr (Or.inl (by omega))
              · exact Or.inr (Or.inr h)
            · rintro (h | h | h)
              · omega
              · exact Or.inl h.le
              · exact Or.inr h

/-- The selection of a list of hits has the rows of the hits. -/
theorem selected_rowSelectionFromSorted {hits : List ℕ} {total : ℕ}
    (hsorted : hits.Pairwise (· < ·)) (hbound : ∀ h ∈ hits, h < total) :
    selected (rowSelectionFromSorted hits total) = mask (fun i => decide (i ∈ hits)) 0 total := by
  unfold rowSelectionFromSorted
  split
  · rw [selected_skipTo, mask_const]
    exact fun i _ _ => decide_eq_false not_mem_nil
  · rename_i hit hits
    have hhit : hit < total := hbound hit mem_cons_self
    have hmore : ∀ i ∈ hits, hit < i := (pairwise_cons.mp hsorted).1
    rw [selected_append, selected_skipTo, selected_selectorsFrom hits le_rfl hhit hsorted
      fun h hh => hbound h (mem_cons_of_mem _ hh), mask_append _ (Nat.zero_le hit) hhit.le]
    congr 1
    · rw [mask_const]
      intro i _ hi
      refine decide_eq_false fun h => ?_
      rcases mem_cons.mp h with h | h
      · omega
      · exact absurd (hmore i h) (by omega)
    · apply mask_congr
      intro i hi
      rw [Bool.eq_iff_iff, decide_eq_true_iff, decide_eq_true_iff, mem_cons]
      constructor
      · rintro (h | h)
        · exact Or.inl (by omega)
        · exact Or.inr h
      · rintro (h | h)
        · exact Or.inl h.le
        · exact Or.inr h

theorem getElem?_mask (p : ℕ → Bool) {i total : ℕ} (h : i < total) :
    (mask p 0 total)[i]? = some (p i) := by
  rw [mask, getElem?_map, getElem?_range' (by omega), map_some]
  simp

/-- The intersection of two sorted lists. -/
theorem intersectSorted_eq (as bs : List ℕ) (ha : as.Pairwise (· < ·)) (hb : bs.Pairwise (· < ·)) :
    intersectSorted as bs = as.filter fun i => i ∈ bs := by
  fun_induction intersectSorted as bs with
  | case1 bs => rfl
  | case2 as hne => simp
  | case3 a as b bs hlt ih =>
    obtain ⟨hafter, hb'⟩ := pairwise_cons.mp hb
    rw [ih (pairwise_cons.mp ha).2 hb, filter_cons_of_neg]
    rw [decide_eq_true_iff, mem_cons, not_or]
    exact ⟨hlt.ne, fun hmem => absurd (hafter a hmem) (by omega)⟩
  | case4 a as b bs hge hlt ih =>
    obtain ⟨hafter, -⟩ := pairwise_cons.mp ha
    rw [ih ha (pairwise_cons.mp hb).2]
    apply filter_congr
    intro i hi
    have hib : i ≠ b := by
      rcases mem_cons.mp hi with rfl | hi
      · exact hlt.ne'
      · exact (hlt.trans (hafter i hi)).ne'
    rw [Bool.eq_iff_iff, decide_eq_true_iff, decide_eq_true_iff, mem_cons]
    exact ⟨Or.inr, fun h => h.resolve_left hib⟩
  | case5 a as b bs hge hge' ih =>
    obtain rfl : a = b := by omega
    obtain ⟨hafter, ha'⟩ := pairwise_cons.mp ha
    rw [ih ha' (pairwise_cons.mp hb).2, filter_cons_of_pos (by simp)]
    congr 1
    apply filter_congr
    intro i hi
    rw [Bool.eq_iff_iff, decide_eq_true_iff, decide_eq_true_iff, mem_cons]
    exact ⟨Or.inr, fun h => h.resolve_left (hafter i hi).ne'⟩

/-- Of sorted lists, which may repeat an element, those of both are found. -/
theorem mem_intersectSorted {as bs : List ℕ} (ha : as.Pairwise (· ≤ ·)) (hb : bs.Pairwise (· ≤ ·)) {i : ℕ} :
    i ∈ intersectSorted as bs ↔ i ∈ as ∧ i ∈ bs := by
  fun_induction intersectSorted as bs with
  | case1 bs => simp
  | case2 as hne => simp
  | case3 a as b bs hlt ih =>
    obtain ⟨hafter, -⟩ := pairwise_cons.mp hb
    rw [ih (pairwise_cons.mp ha).2 hb]
    refine and_congr_left fun hi => ⟨mem_cons_of_mem a, fun h => (mem_cons.mp h).resolve_left ?_⟩
    rintro rfl
    rcases mem_cons.mp hi with rfl | hi
    · exact absurd hlt (lt_irrefl i)
    · exact absurd (hafter i hi) (not_le.mpr hlt)
  | case4 a as b bs hge hlt ih =>
    obtain ⟨hafter, -⟩ := pairwise_cons.mp ha
    rw [ih ha (pairwise_cons.mp hb).2]
    refine and_congr_right fun hi => ⟨mem_cons_of_mem b, fun h => (mem_cons.mp h).resolve_left ?_⟩
    rintro rfl
    rcases mem_cons.mp hi with rfl | hi
    · exact absurd hlt (lt_irrefl i)
    · exact absurd (hafter i hi) (not_le.mpr hlt)
  | case5 a as b bs hge hge' ih =>
    obtain rfl : a = b := by omega
    rw [mem_cons, ih (pairwise_cons.mp ha).2 (pairwise_cons.mp hb).2, mem_cons, mem_cons]
    exact or_and_left

theorem intersectSorted_sublist (as bs : List ℕ) : (intersectSorted as bs).Sublist as := by
  fun_induction intersectSorted as bs with
  | case1 bs => exact Sublist.refl []
  | case2 as hne => exact nil_sublist as
  | case3 a as b bs hlt ih => exact ih.cons a
  | case4 a as b bs hge hlt ih => exact ih
  | case5 a as b bs hge hge' ih => exact ih.cons_cons a

/-- **Selections and intersections denote the hits.** -/
theorem selections_exact :
    (∀ hits total, hits.Pairwise (· < ·) → (∀ h ∈ hits, h < total) →
      (selected (rowSelectionFromSorted hits total)).length = total ∧
        ∀ i, i < total → (selected (rowSelectionFromSorted hits total))[i]? = some (decide (i ∈ hits))) ∧
    ∀ as bs, as.Pairwise (· ≤ ·) → bs.Pairwise (· ≤ ·) →
      (intersectSorted as bs).Pairwise (· ≤ ·) ∧ (∀ i, i ∈ intersectSorted as bs ↔ i ∈ as ∧ i ∈ bs) ∧
        (as.Nodup → bs.Nodup → (intersectSorted as bs).Nodup) := by
  refine ⟨fun hits total hsorted hbound => ?_, fun as bs ha hb => ?_⟩
  · rw [selected_rowSelectionFromSorted hsorted hbound]
    exact ⟨by simp [mask], fun i hi => getElem?_mask _ hi⟩
  · have hsub := intersectSorted_sublist as bs
    exact ⟨ha.sublist hsub, fun i => mem_intersectSorted ha hb, fun hnodup _ => hnodup.sublist hsub⟩

theorem selections_exact_three :
    (selected (rowSelectionFromSorted [0, 2] 3)).length = 3 ∧ (∀ i, i ∈ intersectSorted [1, 2] [2] ↔ i ∈ [1, 2] ∧ i ∈ [2]) :=
  ⟨(selections_exact.1 [0, 2] 3 (by simp) (by simp)).1, (selections_exact.2 [1, 2] [2] (by simp) (by simp)).2.1⟩

/-- A hit that is repeated is selected twice. -/
theorem selection_of_repeated : ([1, 1] : List ℕ).Pairwise (· ≤ ·) ∧ (∀ h ∈ [1, 1], h < 3) ∧
    (selected (rowSelectionFromSorted [1, 1] 3)).length = 4 :=
  ⟨by simp, by simp, rfl⟩

section

variable (reader : JsonReader) (table : CharTable) {textColumn : Text}

/-- The index has the row for what is pushed down. -/
def Found (pushed : IndexTerms) (r : IndexedRow textColumn) : Prop :=
  (∀ t ∈ pushed.terms, t ∈ tokenize table r.body) ∧
    (∀ t ∈ pushed.notTerms, t ∉ tokenize table r.body) ∧
      ∀ kv ∈ pushed.attrProbes, indexedStr reader r.attributes kv.1 = some kv.2

instance (pushed : IndexTerms) (r : IndexedRow textColumn) : Decidable (Found reader table pushed r) :=
  inferInstanceAs (Decidable (_ ∧ _))

theorem intersectSorted_ordinals (p q : IndexedRow textColumn → Bool)
    (rows : List (IndexedRow textColumn)) :
    intersectSorted (ordinals p rows) (ordinals q rows) = ordinals (fun r => p r && q r) rows := by
  rw [intersectSorted_eq _ _ (pairwise_ordinals p rows) (pairwise_ordinals q rows)]
  apply ((pairwise_ordinals p rows).filter _).eq_of_mem_iff (pairwise_ordinals _ rows)
  intro i
  rw [mem_filter, decide_eq_true_iff, mem_ordinals, mem_ordinals, mem_ordinals]
  constructor
  · rintro ⟨⟨r, hr, hp⟩, r', hr', hq⟩
    obtain rfl := some.inj (hr.symm.trans hr')
    exact ⟨r, hr, by rw [hp, hq]; rfl⟩
  · rintro ⟨r, hr, hpq⟩
    obtain ⟨hp, hq⟩ := Bool.and_eq_true_iff.mp hpq
    exact ⟨⟨r, hr, hp⟩, r, hr, hq⟩

/-- The probes that follow a first search. -/
theorem foldl_probes (rows : List (IndexedRow textColumn)) (p : IndexedRow textColumn → Bool)
    (probes : List (Text × Text)) :
    probes.foldl (fun hits probe =>
      match hits with
      | some h => some (intersectSorted h
          (searchAttrEq (buildIndex reader table rows) probe.1 probe.2))
      | none => some (searchAttrEq (buildIndex reader table rows) probe.1 probe.2))
      (some (ordinals p rows)) =
    some (ordinals (fun r => p r &&
      decide (∀ kv ∈ probes, indexedStr reader r.attributes kv.1 = some kv.2)) rows) := by
  induction probes generalizing p with
  | nil => simp
  | cons probe probes ih =>
    rw [foldl_cons]
    dsimp only
    rw [searchAttrEq_build, intersectSorted_ordinals, ih]
    congr 2
    funext r
    rw [Bool.and_assoc]
    congr 1
    rw [Bool.eq_iff_iff, Bool.and_eq_true, decide_eq_true_iff, decide_eq_true_iff, decide_eq_true_iff,
      forall_mem_cons]

/-- The index finds the rows that it has for what is pushed down. -/
theorem indexHits_build (rows : List (IndexedRow textColumn)) {pushed : IndexTerms}
    (h : ¬ (pushed.terms = [] ∧ pushed.notTerms = [] ∧ pushed.attrProbes = [])) :
    indexHits (buildIndex reader table rows) pushed =
      ordinals (fun r => decide (Found reader table pushed r)) rows := by
  unfold indexHits
  dsimp only
  split
  · rw [searchBodyBool_build, foldl_probes, getD_some]
    congr 1
    funext r
    rw [Bool.eq_iff_iff, Bool.and_eq_true, decide_eq_true_iff, decide_eq_true_iff, decide_eq_true_iff,
      and_assoc]
    rfl
  · rename_i hbody
    obtain ⟨hterms, hnot⟩ : pushed.terms = [] ∧ pushed.notTerms = [] := by
      rw [← not_or.trans (and_congr not_not not_not)]
      exact hbody
    obtain ⟨probe, probes, hprobes⟩ := exists_cons_of_ne_nil fun h' => h ⟨hterms, hnot, h'⟩
    rw [hprobes, foldl_cons]
    dsimp only
    rw [searchAttrEq_build, foldl_probes, getD_some]
    congr 1
    funext r
    rw [Bool.eq_iff_iff, Bool.and_eq_true, decide_eq_true_iff, decide_eq_true_iff, decide_eq_true_iff,
      Found, hterms, hnot, hprobes, forall_mem_cons]
    simp

/-- The segment of the rows, with its index. -/
def indexedSegment (rows : List (IndexedRow textColumn)) : SegmentInput :=
  { rows := rows.length, index := some (buildIndex reader table rows) }

/-- The selection has the rows that the index has, when they are few. -/
theorem rowSelectionFor_eq (rows : List (IndexedRow textColumn)) (pushed : IndexTerms) :
    rowSelectionFor (indexedSegment reader table rows) pushed =
      if rows = [] ∨ (pushed.terms = [] ∧ pushed.notTerms = [] ∧ pushed.attrProbes = []) then none
      else if selective (rows.countP fun r => decide (Found reader table pushed r)) rows.length then
        some (rowSelectionFromSorted (ordinals (fun r => decide (Found reader table pushed r)) rows)
          rows.length)
      else none := by
  unfold rowSelectionFor indexedSegment
  dsimp only
  by_cases hrows : rows = []
  · rw [if_pos (List.length_eq_zero_iff.mpr hrows), if_pos (Or.inl hrows)]
  · rw [if_neg fun h => hrows (List.length_eq_zero_iff.mp h)]
    by_cases hempty : pushed.terms = [] ∧ pushed.notTerms = [] ∧ pushed.attrProbes = []
    · rw [if_pos hempty, if_pos (Or.inr hempty)]
    · rw [if_neg hempty, if_neg (not_or.mpr ⟨hrows, hempty⟩), indexHits_build _ _ _ hempty,
        length_ordinals, if_neg]
      -- no hit is behind the last row
      rw [Option.any_eq_true]
      rintro ⟨i, hi, hle⟩
      obtain ⟨r, hr, -⟩ := mem_ordinals.mp (List.mem_of_getLast? hi)
      exact absurd (List.getElem?_eq_some_iff.mp hr).1 (not_lt.mpr (of_decide_eq_true hle))

/-- A row is selected if the index has it. -/
theorem selected_ordinals (p : IndexedRow textColumn → Bool) {rows : List (IndexedRow textColumn)}
    {i : ℕ} {r : IndexedRow textColumn} (hr : rows[i]? = some r) :
    (selected (rowSelectionFromSorted (ordinals p rows) rows.length))[i]? = some (p r) := by
  rw [selected_rowSelectionFromSorted (pairwise_ordinals p rows),
    getElem?_mask _ (List.getElem?_eq_some_iff.mp hr).1]
  · rw [Option.some_inj, Bool.eq_iff_iff, decide_eq_true_iff, mem_ordinals]
    constructor
    · rintro ⟨r', hr', hp⟩
      rw [Option.some.inj (hr.symm.trans hr')]
      exact hp
    · exact fun hp => ⟨r, hr, hp⟩
  · intro j hj
    obtain ⟨r', hr', -⟩ := mem_ordinals.mp hj
    exact (List.getElem?_eq_some_iff.mp hr').1

end

/-! ## What the filters say -/

theorem utf8Literal_eq {e : Expr} {s : Text} (h : utf8Literal e = some s) :
    e = .literal (.utf8 (some s)) := by
  unfold utf8Literal at h
  split at h
  · rw [some.inj h]
  · exact absurd h (by simp)

theorem mem_sortTerms {t : Text} {terms : List Text} : t ∈ sortTerms terms ↔ t ∈ terms := by
  rw [sortTerms, mem_dedupSorted, mem_insertionSort]

section

variable (reader : JsonReader) (table : CharTable) (rest : Rest) {textColumn : Text}

/-- A text search is TRUE on the rows with all its terms. -/
theorem matchesTextTerms_eval {e : Expr} {ts : List Text}
    (h : matchesTextTerms table (some textColumn) e = some ts) (r : IndexedRow textColumn) :
    e.eval (withUdfs reader table rest) r.columns =
      .boolean (some (decide (∀ t ∈ ts, t ∈ tokenize table r.body))) := by
  unfold matchesTextTerms at h
  split at h
  case h_2 => exact absurd h (by simp)
  rename_i name c query
  split at h
  case isFalse => exact absurd h (by simp)
  rename_i hname
  obtain ⟨rfl, hc⟩ := hname
  obtain rfl := some.inj hc
  obtain ⟨q, hq, rfl⟩ := map_eq_some_iff.mp h
  rw [utf8Literal_eq hq]
  simp only [Expr.eval, evalAll]
  rw [withUdfs]
  dsimp only
  rw [if_pos rfl, r.body_eq, matchesImpl, map_some]
  congr 2
  rw [Bool.eq_iff_iff, matchesTerms_iff, decide_eq_true_iff]

/-- The index agrees with the filters on a row: none of the terms of a negated search is in the row,
and the last string at a probed key is the value. -/
structure IndexAgrees (filters : List Expr) (r : IndexedRow textColumn) : Prop where
  negated : ∀ e ∈ filters, ∀ ts, notMatchesTextTerms table (some textColumn) e = some ts →
    ∀ t ∈ ts, t ∉ tokenize table r.body
  attrs : ∀ e ∈ filters, ∀ kv, attrEqPredicate e = some kv →
    indexedStr reader r.attributes kv.1 = some kv.2

/-- On a row that makes the filters TRUE the index has what it agrees on. -/
theorem found_iff {filters : List Expr} {r : IndexedRow textColumn}
    (htrue : ∀ e ∈ filters, e.IsTrue (withUdfs reader table rest) r.columns) :
    Found reader table (indexTerms table (some textColumn) filters) r ↔
      IndexAgrees reader table filters r := by
  have hterms : ∀ t ∈ (indexTerms table (some textColumn) filters).terms,
      t ∈ tokenize table r.body := by
    intro t ht
    obtain ⟨e, he, ht⟩ := mem_flatMap.mp (mem_sortTerms.mp ht)
    rcases hts : matchesTextTerms table (some textColumn) e with _ | ts
    · rw [hts] at ht
      exact absurd ht not_mem_nil
    · rw [hts, getD_some] at ht
      have htrue := (matchesTextTerms_eval reader table rest hts r).symm.trans (htrue e he)
      exact of_decide_eq_true (some.inj (ScalarValue.boolean.inj htrue)) t ht
  constructor
  · rintro ⟨-, hnot, hattrs⟩
    constructor
    · intro e he ts hts t ht
      apply hnot t
      apply mem_sortTerms.mpr
      exact mem_flatMap.mpr ⟨e, he, by rw [hts]; exact ht⟩
    · intro e he kv hkv
      exact hattrs kv (mem_filterMap.mpr ⟨e, he, hkv⟩)
  · intro hagrees
    refine ⟨hterms, ?_, ?_⟩
    · intro t ht
      obtain ⟨e, he, ht⟩ := mem_flatMap.mp (mem_sortTerms.mp ht)
      rcases hts : notMatchesTextTerms table (some textColumn) e with _ | ts
      · rw [hts] at ht
        exact absurd ht not_mem_nil
      · rw [hts, getD_some] at ht
        exact hagrees.negated e he ts hts t ht
    · intro kv hkv
      obtain ⟨e, he, hkv⟩ := mem_filterMap.mp hkv
      exact hagrees.attrs e he kv hkv

/-- A row that makes the filters TRUE is read, when the index finds at least half of the rows or agrees with the
filters on it. -/
theorem selected_iff {filters : List Expr} {rows : List (IndexedRow textColumn)} {i : ℕ}
    {r : IndexedRow textColumn} (hr : rows[i]? = some r)
    (htrue : ∀ e ∈ filters, e.IsTrue (withUdfs reader table rest) r.columns) :
    (∀ sel, rowSelectionFor (indexedSegment reader table rows)
        (indexTerms table (some textColumn) filters) = some sel → (selected sel)[i]? = some true) ↔
      (selective (rows.countP fun r =>
          decide (Found reader table (indexTerms table (some textColumn) filters) r)) rows.length = true →
        IndexAgrees reader table filters r) := by
  rw [rowSelectionFor_eq, ← found_iff reader table rest htrue]
  by_cases hempty : (indexTerms table (some textColumn) filters).terms = [] ∧
    (indexTerms table (some textColumn) filters).notTerms = [] ∧
      (indexTerms table (some textColumn) filters).attrProbes = []
  · rw [if_pos (Or.inr hempty)]
    obtain ⟨hterms, hnot, hprobes⟩ := hempty
    refine iff_of_true (fun _ h => nomatch h) fun _ => ?_
    rw [Found, hterms, hnot, hprobes]
    simp
  · rw [if_neg (not_or.mpr ⟨ne_nil_of_mem (mem_of_getElem? hr), hempty⟩)]
    split
    · rename_i hfew
      constructor
      · intro hread _
        have hsel := hread _ rfl
        rw [selected_ordinals _ hr] at hsel
        exact of_decide_eq_true (some.inj hsel)
      · intro hfound sel hsel
        obtain rfl := some.inj hsel
        rw [selected_ordinals _ hr, decide_eq_true (hfound hfew)]
    · rename_i hmany
      exact iff_of_true (fun _ h => nomatch h) fun hfew => absurd hfew hmany

/-- **When no row is lost**: when the index finds at least half of the rows, so that all are read, or
agrees with the filters on every row that makes them TRUE. -/
theorem selection_keeps_iff (filters : List Expr) (rows : List (IndexedRow textColumn)) :
    (∀ sel, rowSelectionFor (indexedSegment reader table rows)
        (indexTerms table (some textColumn) filters) = some sel →
      ∀ (i : ℕ) (r : IndexedRow textColumn), rows[i]? = some r →
        (∀ e ∈ filters, e.IsTrue (withUdfs reader table rest) r.columns) →
          (selected sel)[i]? = some true) ↔
      (selective (rows.countP fun r =>
          decide (Found reader table (indexTerms table (some textColumn) filters) r)) rows.length = true →
        ∀ r ∈ rows, (∀ e ∈ filters, e.IsTrue (withUdfs reader table rest) r.columns) →
          IndexAgrees reader table filters r) := by
  constructor
  · intro hkeeps hfew r hr htrue
    obtain ⟨i, hi⟩ := mem_iff_getElem?.mp hr
    exact (selected_iff reader table rest hi htrue).mp (fun sel hsel => hkeeps sel hsel i r hi htrue) hfew
  · intro hagrees sel hsel i r hi htrue
    exact (selected_iff reader table rest hi htrue).mpr
      (fun hfew => hagrees hfew r (mem_of_getElem? hi) htrue) sel hsel

end

/-! ### A lost row -/

/-- The ASCII part of the tables. -/
def asciiTable : CharTable where
  isAlphanumeric := Char.isAlphanum
  toLowercase c := [c.toLower]

/-- A reader of the empty object. -/
def emptyObjects : JsonReader where
  document s := if s = "\x7b\x7d".toList then some (.map []) else none
  members s := if s = "\x7b\x7d".toList then some [] else none

/-- A log row with the body `retry`. -/
def retryRow : IndexedRow "body".toList where
  columns c := .utf8 (some (if c = "body".toList then "retry".toList else "\x7b\x7d".toList))
  body := "retry".toList
  attributes := "\x7b\x7d".toList
  body_eq := rfl
  attributes_eq := rfl

/-- `matches(body, 'retry timeout')` -/
def retryTimeout : Expr :=
  .scalarFunction "matches".toList
    [.column "body".toList, .literal (.utf8 (some "retry timeout".toList))]

/-- A row with one of two excluded terms is lost. -/
theorem selection_loses_retry :
    (Expr.not retryTimeout).IsTrue (withUdfs emptyObjects asciiTable castNumbers) retryRow.columns ∧
      ∃ sel, rowSelectionFor (indexedSegment emptyObjects asciiTable [retryRow])
          (indexTerms asciiTable (some "body".toList) [.not retryTimeout]) = some sel ∧
        (selected sel)[0]? = some false := by
  refine ⟨?_, _, rfl, rfl⟩
  have hterms : matchesTextTerms asciiTable (some "body".toList) retryTimeout =
      some ["retry".toList, "timeout".toList] := by
    decide
  rw [Expr.IsTrue, Expr.eval,
    matchesTextTerms_eval emptyObjects asciiTable castNumbers hterms retryRow]
  decide

end Imbh.Query
