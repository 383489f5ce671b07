import Mathlib.Data.List.Induction
import Mathlib.Data.List.Sort
import Imbh.Core.Json
import Imbh.Core.Tokens
import Imbh.Query.Expr

/-!
# The full-text and attribute index of a segment

One document for each row: the terms of its text, its attributes with a string value, and its
ordinal. A query finds the documents that have all its `must` terms and none of its `mustNot` terms.
The index engine is taken to find exactly these.
-/

namespace Imbh.Query

open Lib Imbh.Core List

/-- What is indexed of a row. Source: imbh-index `IndexDoc` -/
structure IndexDoc where
  body : Text
  attributes : Text
  row : ℕ

/-- A document of the index: the terms of its `body` field, the object of its `attrs` field and its
`row`. -/
structure Document where
  body : List Text
  attrs : List (Text × Text)
  row : ℕ

/-- An insertion in a map; what was at the key is replaced. -/
def insertKey (m : List (Text × Text)) (kv : Text × Text) : List (Text × Text) :=
  kv :: m.filter fun e => e.1 ≠ kv.1

/-- The attributes with a string value, in order. -/
def strPairs (attributes : List (Text × AnyValue)) : List (Text × Text) :=
  attributes.filterMap fun kv => kv.2.asStr.map fun s => (kv.1, s)

/-- Source: imbh-index `build_text_index`, one document -/
def toDocument (reader : JsonReader) (table : CharTable) (d : IndexDoc) : Document where
  body := tokenize table d.body
  attrs := (strPairs (fromCanonicalJson reader d.attributes)).foldl insertKey []
  row := d.row

/-- Source: imbh-index `build_text_index` -/
def buildTextIndex (reader : JsonReader) (table : CharTable) (docs : List IndexDoc) : List Document :=
  docs.map (toDocument reader table)

/-! ## Queries -/

inductive Occur
  | must
  | mustNot

/-- A query for one term. The path of an attribute is in its escaped form. -/
inductive TermQuery
  | all
  | body (term : Text)
  | attr (path value : Text)

/-- The segments of a JSON path, the current one being `buffer`: a dot ends a segment, unless it is
escaped. Source: tantivy `split_json_path` -/
def splitJsonPathFrom (buffer : Text) (escaped : Bool) : Text → List Text
  | [] => [buffer]
  | c :: path =>
      if escaped then splitJsonPathFrom (buffer ++ [c]) false path
      else if c = '\\' then splitJsonPathFrom buffer true path
      else if c = '.' then buffer :: splitJsonPathFrom [] false path
      else splitJsonPathFrom (buffer ++ [c]) false path

def splitJsonPath (path : Text) : List Text := splitJsonPathFrom [] false path

/-- Source: imbh-index `escape_json_path` -/
def escapeJsonPath (key : Text) : Text :=
  key.flatMap fun c => if c = '\\' ∨ c = '.' then ['\\', c] else [c]

/-- Whether the document has the term. The keys of the object are paths of one segment. -/
def TermQuery.hits (doc : Document) : TermQuery → Bool
  | .all => true
  | .body term => term ∈ doc.body
  | .attr path value => doc.attrs.any fun kv => splitJsonPath path = [kv.1] ∧ kv.2 = value

/-- A boolean query; without a positive clause it finds nothing. -/
def booleanHits (doc : Document) (clauses : List (Occur × TermQuery)) : Bool :=
  (clauses.any fun c => match c.1 with | .must => true | .mustNot => false) &&
    clauses.all fun c => match c.1 with | .must => c.2.hits doc | .mustNot => !c.2.hits doc

/-- Remove what repeats its predecessor. Source: `Vec::dedup` -/
def dedupSorted {α : Type} [DecidableEq α] : List α → List α
  | [] => []
  | [a] => [a]
  | a :: b :: l => if a = b then dedupSorted (b :: l) else a :: dedupSorted (b :: l)

/-- Source: imbh-index `collect_hit_rows` -/
def collectHitRows (index : List Document) (query : Document → Bool) : List ℕ :=
  dedupSorted (((index.filter query).map Document.row).insertionSort (· ≤ ·))

/-- The clauses of a body query. Source: imbh-index `search_body_bool` -/
def bodyClauses (must mustNot : List Text) : List (Occur × TermQuery) :=
  (if must = [] then [(.must, .all)] else []) ++ must.map (fun t => (.must, .body t)) ++
    mustNot.map fun t => (.mustNot, .body t)

/-- Source: imbh-index `search_body_bool` -/
def searchBodyBool (index : List Document) (must mustNot : List Text) : List ℕ :=
  if must = [] ∧ mustNot = [] then List.range index.length
  else collectHitRows index fun doc => booleanHits doc (bodyClauses must mustNot)

/-- Source: imbh-index `search_attr_eq` -/
def searchAttrEq (index : List Document) (key value : Text) : List ℕ :=
  collectHitRows index fun doc => (TermQuery.attr (escapeJsonPath key) value).hits doc

/-! ## What a query finds -/

theorem mem_dedupSorted {α : Type} [DecidableEq α] {a : α} :
    ∀ l : List α, a ∈ dedupSorted l ↔ a ∈ l
  | [] => Iff.rfl
  | [_] => Iff.rfl
  | b :: c :: l => by
      rw [dedupSorted]
      split
      · rename_i h
        rw [mem_dedupSorted (c :: l), h, mem_cons (b := c) (l := c :: l), mem_cons]
        tauto
      · rw [mem_cons, mem_dedupSorted (c :: l), mem_cons (b := b)]

theorem dedupSorted_eq_self {α : Type} [DecidableEq α] : ∀ {l : List α}, l.Nodup → dedupSorted l = l
  | [], _ => rfl
  | [_], _ => rfl
  | b :: c :: l, h => by
      have hne : b ≠ c := fun hbc => (nodup_cons.mp h).1 (hbc ▸ mem_cons_self)
      rw [dedupSorted, if_neg hne, dedupSorted_eq_self (nodup_cons.mp h).2]

/-- The segments of an escaped key are the key. -/
theorem splitJsonPathFrom_escape (key buffer : Text) :
    splitJsonPathFrom buffer false (escapeJsonPath key) = [buffer ++ key] := by
  induction key generalizing buffer with
  | nil =>
    rw [append_nil]
    rfl
  | cons c key ih =>
    have hstep : splitJsonPathFrom buffer false (escapeJsonPath (c :: key)) =
        splitJsonPathFrom (buffer ++ [c]) false (escapeJsonPath key) := by
      rw [escapeJsonPath, flatMap_cons]
      split
      · rw [cons_append, splitJsonPathFrom, if_neg Bool.false_ne_true, if_pos rfl,
          cons_append, splitJsonPathFrom, if_pos rfl]
        rfl
      · rename_i h
        rw [cons_append, splitJsonPathFrom, if_neg Bool.false_ne_true,
          if_neg fun hc => h (Or.inl hc), if_neg fun hc => h (Or.inr hc)]
        rfl
    rw [hstep, ih, append_assoc]
    rfl

theorem splitJsonPath_escape (key : Text) : splitJsonPath (escapeJsonPath key) = [key] :=
  splitJsonPathFrom_escape key []

theorem bodyClauses_hits (doc : Document) (must mustNot : List Text) :
    booleanHits doc (bodyClauses must mustNot) = true ↔
      (∀ t ∈ must, t ∈ doc.body) ∧ ∀ t ∈ mustNot, t ∉ doc.body := by
  have hpositive : ((bodyClauses must mustNot).any fun c =>
      match c.1 with | .must => true | .mustNot => false) = true := by
    unfold bodyClauses
    rcases must with _ | ⟨t, must⟩ <;> rfl
  rw [booleanHits, hpositive, Bool.true_and, all_eq_true]
  unfold bodyClauses
  constructor
  · intro h
    constructor
    · intro t ht
      exact of_decide_eq_true (h (.must, .body t) (mem_append_left _ (mem_append_right _
        (mem_map_of_mem (f := fun t => (Occur.must, TermQuery.body t)) ht))))
    · intro t ht
      have hnot := h (.mustNot, .body t) (mem_append_right _
        (mem_map_of_mem (f := fun t => (Occur.mustNot, TermQuery.body t)) ht))
      exact of_decide_eq_false (Bool.not_eq_true' _ ▸ hnot)
  · rintro ⟨hmust, hnot⟩ c hc
    rcases mem_append.mp hc with hc | hc
    · rcases mem_append.mp hc with hc | hc
      · split at hc
        · rw [mem_singleton.mp hc]
          rfl
        · exact absurd hc not_mem_nil
      · obtain ⟨t, ht, rfl⟩ := mem_map.mp hc
        exact decide_eq_true (hmust t ht)
    · obtain ⟨t, ht, rfl⟩ := mem_map.mp hc
      exact (Bool.not_eq_true' _).mpr (decide_eq_false (hnot t ht))

/-- In a map that was filled in order, a key has the last value it was given. -/
theorem mem_foldl_insertKey (pairs : List (Text × Text)) (key value : Text) :
    (key, value) ∈ pairs.foldl insertKey [] ↔
      (pairs.reverse.find? fun kv => kv.1 = key) = some (key, value) := by
  induction pairs using List.reverseRecOn with
  | nil =>
    constructor
    · exact fun h => absurd h not_mem_nil
    · exact fun h => absurd h (by simp)
  | append_singleton pairs kv ih =>
    rw [foldl_append, foldl_cons, foldl_nil, insertKey, mem_cons, mem_filter,
      reverse_append, reverse_singleton, singleton_append, find?_cons]
    by_cases hk : kv.1 = key
    · rw [decide_eq_true hk]
      constructor
      · rintro (h | ⟨_, h⟩)
        · rw [h]
        · exact absurd hk.symm (of_decide_eq_true h)
      · intro h
        exact Or.inl (Option.some.inj h).symm
    · rw [decide_eq_false hk, ← ih]
      constructor
      · rintro (h | ⟨h, _⟩)
        · exact absurd (congrArg Prod.fst h).symm hk
        · exact h
      · intro h
        exact Or.inr ⟨h, decide_eq_true fun hkey => hk hkey.symm⟩

/-- The string that the index has for a key of an attributes text: the last one. -/
def indexedStr (reader : JsonReader) (attributes key : Text) : Option Text :=
  ((strPairs (fromCanonicalJson reader attributes)).reverse.find? fun kv => kv.1 = key).map Prod.snd

theorem attr_hits (reader : JsonReader) (table : CharTable) (d : IndexDoc) (key value : Text) :
    (TermQuery.attr (escapeJsonPath key) value).hits (toDocument reader table d) = true ↔
      indexedStr reader d.attributes key = some value := by
  rw [TermQuery.hits, splitJsonPath_escape, any_eq_true, indexedStr, Option.map_eq_some_iff]
  constructor
  · rintro ⟨kv, hmem, hkv⟩
    obtain ⟨hkey, rfl⟩ := of_decide_eq_true hkv
    obtain rfl : key = kv.1 := (List.cons.inj hkey).1
    exact ⟨kv, (mem_foldl_insertKey _ _ _).mp hmem, rfl⟩
  · rintro ⟨kv, hfind, rfl⟩
    obtain rfl : kv.1 = key := by simpa using find?_some hfind
    exact ⟨kv, (mem_foldl_insertKey _ kv.1 kv.2).mpr hfind, decide_eq_true ⟨rfl, rfl⟩⟩

/-! ## The index of a list of rows -/

/-- A row with what is indexed of it: the text in its column `textColumn`, and its attributes. -/
structure IndexedRow (textColumn : Text) where
  columns : ColumnValues
  body : Text
  attributes : Text
  body_eq : columns textColumn = .utf8 (some body)
  attributes_eq : columns "attributes".toList = .utf8 (some attributes)

section

variable {textColumn : Text} (reader : JsonReader) (table : CharTable)

/-- Source: imbh-index `build_logs_index`, `build_spans_index` -/
def buildIndex (rows : List (IndexedRow textColumn)) : List Document :=
  buildTextIndex reader table (rows.zipIdx.map fun r => ⟨r.1.body, r.1.attributes, r.2⟩)

/-- The ordinals of the rows that satisfy a predicate. -/
def ordinals (p : IndexedRow textColumn → Bool) (rows : List (IndexedRow textColumn)) : List ℕ :=
  (rows.zipIdx.filter fun r => p r.1).map Prod.snd

theorem mem_ordinals {p : IndexedRow textColumn → Bool} {rows : List (IndexedRow textColumn)} {i : ℕ} :
    i ∈ ordinals p rows ↔ ∃ r, rows[i]? = some r ∧ p r = true := by
  rw [ordinals, mem_map]
  constructor
  · rintro ⟨⟨r, j⟩, hmem, rfl⟩
    obtain ⟨hmem, hp⟩ := mem_filter.mp hmem
    exact ⟨r, mem_zipIdx_iff_getElem?.mp hmem, hp⟩
  · rintro ⟨r, hr, hp⟩
    exact ⟨(r, i), mem_filter.mpr ⟨mem_zipIdx_iff_getElem?.mpr hr, hp⟩, rfl⟩

theorem pairwise_ordinals (p : IndexedRow textColumn → Bool) (rows : List (IndexedRow textColumn)) :
    (ordinals p rows).Pairwise (· < ·) := by
  apply Pairwise.sublist (filter_sublist.map Prod.snd)
  rw [zipIdx_map_snd]
  exact pairwise_lt_range'

theorem length_ordinals (p : IndexedRow textColumn → Bool) (rows : List (IndexedRow textColumn)) :
    (ordinals p rows).length = rows.countP p := by
  rw [ordinals, length_map, ← countP_eq_length_filter]
  calc rows.zipIdx.countP (fun r => p r.1) = (rows.zipIdx.map Prod.fst).countP p :=
        (countP_map (p := p) (f := Prod.fst) (l := rows.zipIdx)).symm
    _ = rows.countP p := by rw [zipIdx_map_fst]

/-- A query for documents finds the ordinals of their rows. -/
theorem collectHitRows_build (rows : List (IndexedRow textColumn)) {query : Document → Bool}
    {p : IndexedRow textColumn → Bool}
    (h : ∀ r i, query (toDocument reader table ⟨r.body, r.attributes, i⟩) = p r) :
    collectHitRows (buildIndex reader table rows) query = ordinals p rows := by
  have hrows : ((buildIndex reader table rows).filter query).map Document.row = ordinals p rows := by
    rw [buildIndex, buildTextIndex, map_map, filter_map, map_map, ordinals]
    congr 1
    exact filter_congr fun r _ => h r.1 r.2
  have hlt := pairwise_ordinals p rows
  rw [collectHitRows, hrows, Pairwise.insertionSort_eq (hlt.imp le_of_lt),
    dedupSorted_eq_self (hlt.imp ne_of_lt)]

/-- The rows with all terms of `must` and none of `mustNot`. -/
theorem searchBodyBool_build (rows : List (IndexedRow textColumn)) (must mustNot : List Text) :
    searchBodyBool (buildIndex reader table rows) must mustNot =
      ordinals (fun r => decide ((∀ t ∈ must, t ∈ tokenize table r.body) ∧
        ∀ t ∈ mustNot, t ∉ tokenize table r.body)) rows := by
  unfold searchBodyBool
  split
  · rename_i h
    have hall : (rows.zipIdx.filter fun _ => true) = rows.zipIdx := filter_true _
    rw [ordinals, h.1, h.2]
    simp [buildIndex, buildTextIndex, range_eq_range']
  · apply collectHitRows_build
    intro r i
    rw [Bool.eq_iff_iff, bodyClauses_hits, decide_eq_true_iff]
    rfl

/-- The rows with the value as the last string of the key. -/
theorem searchAttrEq_build (rows : List (IndexedRow textColumn)) (key value : Text) :
    searchAttrEq (buildIndex reader table rows) key value =
      ordinals (fun r => decide (indexedStr reader r.attributes key = some value)) rows := by
  apply collectHitRows_build
  intro r i
  rw [Bool.eq_iff_iff, attr_hits, decide_eq_true_iff]

end

end Imbh.Query
