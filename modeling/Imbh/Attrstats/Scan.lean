import Imbh.Attrstats.Totals
import Imbh.Lib.Coalesce

/-!
# Reading an attribute column (`scan.rs`)

A column comes in batches, each of which is an array of texts or a dictionary with an index for each row. Equal
neighbours of a batch are applied to the accumulators together, and the attributes of the row before are carried along,
to tell on which rows the value of a key changes.

* `scan_exact` — the column may be read in any batches if and only if no equal neighbours have a NaN.
-/

namespace Imbh.Attrstats

open Lib Imbh.Core List

/-- A batch of the column: strings, or the dictionary's indices, as `usize`s, and its entries. -/
inductive Batch
  | utf8 (rows : List (Option Text))
  | dictionary (keys : List (Option ℕ)) (values : List (Option Text))

/-- The entry of an index, if there is one. -/
def entryText (values : List (Option Text)) (idx : ℕ) : Option Text := (values[idx]?).join

/-- The rows that a batch stands for. -/
def Batch.rows : Batch → List (Option Text)
  | .utf8 rows => rows
  | .dictionary keys values => keys.map fun key => key.bind (entryText values)

section

-- The JSON library's reader and writer.
variable (reader : JsonReader) (write : Json → Text)

/-- Source: `accum.rs` `value_text` -/
def valueText : AnyValue → Text
  | .str s => s
  | other => canonicalJsonValue write other

/-- The value of a key differs from that of the row before.
Source: `scan.rs` `apply` -/
def newRun (prev : Option (List (Text × AnyValue))) (key : Text) (value : AnyValue) : Bool :=
  match prev with
  | none => true
  | some p =>
      match getAttr p key with
      | some v => !v.eq value
      | none => true

/-- The sinks, and the attributes of the row before. -/
structure ScanState (κ : Type) where
  sinks : List (Acc κ)
  prev : Option (List (Text × AnyValue))

variable {κ : Type} [LinearOrder κ] [OrderTop κ] (hash : Text → κ) (attrScope : AttrScope)

/-- Source: `scan.rs` `apply` -/
def apply (s : ScanState κ) (json : Text) (count : ℕ) : ScanState κ :=
  let attrs := fromCanonicalJson reader json
  { sinks := attrs.foldl (fun sinks kv =>
      let o : Observation :=
        { scope := attrScope
          name := attrScope.keyPrefix ++ kv.1
          value := kv.2
          text := valueText write kv.2
          count := count
          newRun := newRun s.prev kv.1 kv.2 }
      sinks.map fun sink => sink.observe hash o) s.sinks
    prev := some attrs }

/-- Source: `scan.rs` `scan_utf8` -/
def scanUtf8 (s : ScanState κ) (rows : List (Option Text)) : ScanState κ := coalesce (apply reader write hash attrScope) s rows

/-- Source: `scan.rs` `scan_dictionary` -/
def scanDictionary (s : ScanState κ) (keys : List (Option ℕ)) (values : List (Option Text)) : ScanState κ :=
  coalesce (fun s idx run =>
    match entryText values idx with
    | some text => if 0 < run then apply reader write hash attrScope s text run else s
    | none => s) s keys

/-- A batch of the segment.
Source: `scan.rs` `scan_segment` -/
def scanBatch (s : ScanState κ) (batch : Batch) : ScanState κ :=
  let s := { s with sinks := s.sinks.map fun sink => sink.addRows batch.rows.length }
  match batch with
  | .utf8 rows => scanUtf8 reader write hash attrScope s rows
  | .dictionary keys values => scanDictionary reader write hash attrScope s keys values

/-- Source: `scan.rs` `scan_segment` -/
def scanColumn (sinks : List (Acc κ)) (batches : List Batch) : List (Acc κ) :=
  (batches.foldl (scanBatch reader write hash attrScope) ⟨sinks, none⟩).sinks

/-- A row is observed by itself. -/
def scanRow (s : ScanState κ) (row : Option Text) : ScanState κ :=
  let s := { s with sinks := s.sinks.map fun sink => sink.addRows 1 }
  match row with
  | some json => apply reader write hash attrScope s json 1
  | none => s

def scanRows (sinks : List (Acc κ)) (rows : List (Option Text)) : List (Acc κ) :=
  (rows.foldl (scanRow reader write hash attrScope) ⟨sinks, none⟩).sinks

/-! ## The observations of a scan -/

/-- The pairs that are observed when attributes are applied. -/
def observationsOf (prev : Option (List (Text × AnyValue))) (attrs : List (Text × AnyValue)) (count : ℕ) : List Observation :=
  attrs.map fun kv =>
    { scope := attrScope
      name := attrScope.keyPrefix ++ kv.1
      value := kv.2
      text := valueText write kv.2
      count := count
      newRun := newRun prev kv.1 kv.2 }

/-- The observations of some calls. -/
def callObservations : Option (List (Text × AnyValue)) → List (Text × ℕ) → List Observation
  | _, [] => []
  | prev, c :: calls =>
      observationsOf write attrScope prev (fromCanonicalJson reader c.1) c.2 ++
        callObservations (some (fromCanonicalJson reader c.1)) calls

def applyCall (s : ScanState κ) (c : Text × ℕ) : ScanState κ := apply reader write hash attrScope s c.1 c.2

/-- A row counts once in each sink, with its text and its attributes. -/
theorem apply_eq (s : ScanState κ) (json : Text) (count : ℕ) : apply reader write hash attrScope s json count =
    { sinks := s.sinks.map fun sink =>
        (observationsOf write attrScope s.prev (fromCanonicalJson reader json) count).foldl (Acc.observe hash) sink
      prev := some (fromCanonicalJson reader json) } := by
  have hsinks (attrs : List (Text × AnyValue)) (observation : Text × AnyValue → Observation) (sinks : List (Acc κ)) :
      attrs.foldl (fun sinks kv => sinks.map fun sink => sink.observe hash (observation kv)) sinks =
        sinks.map fun sink => (attrs.map observation).foldl (Acc.observe hash) sink := by
    induction attrs generalizing sinks with
    | nil => exact (map_id sinks).symm
    | cons kv attrs ih =>
      rw [foldl_cons, ih, map_map]
      rfl
  rw [apply]
  dsimp only
  rw [hsinks]
  rfl

/-- The sinks observe the pairs of all calls. -/
theorem foldl_applyCall_sinks (calls : List (Text × ℕ)) (s : ScanState κ) :
    (calls.foldl (applyCall reader write hash attrScope) s).sinks =
      s.sinks.map fun sink => (callObservations reader write attrScope s.prev calls).foldl (Acc.observe hash) sink := by
  induction calls generalizing s with
  | nil => exact (map_id s.sinks).symm
  | cons c calls ih =>
    rw [foldl_cons, ih, applyCall, apply_eq, map_map]
    apply map_congr_left
    intro sink _
    rw [callObservations, foldl_append]
    rfl

/-! ## The rows of a scan -/

def ScanState.addRows (s : ScanState κ) (n : ℕ) : ScanState κ := { s with sinks := s.sinks.map fun sink => sink.addRows n }

theorem ScanState.addRows_zero {κ : Type} (s : ScanState κ) : s.addRows 0 = s := by
  obtain ⟨sinks, prev⟩ := s
  exact congrArg (ScanState.mk · prev) (map_id sinks)

theorem ScanState.addRows_addRows {κ : Type} (s : ScanState κ) (m n : ℕ) : (s.addRows m).addRows n = s.addRows (m + n) := by
  rw [addRows, addRows, addRows, map_map]
  congr 1
  apply map_congr_left
  intro sink _
  simp [Acc.addRows, add_assoc]

/-- The count of rows does not matter to a call. -/
theorem applyCall_addRows (s : ScanState κ) (n : ℕ) (c : Text × ℕ) :
    applyCall reader write hash attrScope (s.addRows n) c = (applyCall reader write hash attrScope s c).addRows n := by
  have hfold (observations : List Observation) (sink : Acc κ) :
      observations.foldl (Acc.observe hash) (sink.addRows n) = (observations.foldl (Acc.observe hash) sink).addRows n := by
    induction observations generalizing sink with
    | nil => rfl
    | cons o observations ih => exact ih (sink.observe hash o)
  rw [applyCall, applyCall, apply_eq, apply_eq, ScanState.addRows, ScanState.addRows, map_map, map_map]
  congr 1
  apply map_congr_left
  intro sink _
  exact hfold _ sink

theorem foldl_applyCall_addRows (calls : List (Text × ℕ)) (s : ScanState κ) (n : ℕ) :
    calls.foldl (applyCall reader write hash attrScope) (s.addRows n) =
      (calls.foldl (applyCall reader write hash attrScope) s).addRows n := by
  induction calls generalizing s with
  | nil => rfl
  | cons c calls ih => rw [foldl_cons, applyCall_addRows, ih, foldl_cons]

/-- The calls of a batch. -/
def Batch.calls : Batch → List (Text × ℕ)
  | .utf8 rows => coalesced rows
  | .dictionary keys values => (coalesced keys).filterMap fun c => (entryText values c.1).map (·, c.2)

theorem Batch.calls_reads (batch : Batch) : Reads batch.calls batch.rows := by
  cases batch with
  | utf8 rows => exact coalesced_reads rows
  | dictionary keys values => exact (coalesced_reads keys).filterMap (entryText values)

/-- A batch is one call for each run of equal texts. -/
theorem scanBatch_eq (s : ScanState κ) (batch : Batch) : scanBatch reader write hash attrScope s batch =
    batch.calls.foldl (applyCall reader write hash attrScope) (s.addRows batch.rows.length) := by
  cases batch with
  | utf8 rows =>
    rw [scanBatch, scanUtf8, coalesce_eq]
    rfl
  | dictionary keys values =>
    rw [scanBatch, scanDictionary, coalesce_eq, Batch.calls]
    have hpos := (coalesced_reads keys).pos
    dsimp only [ScanState.addRows]
    generalize { s with sinks := _ } = s
    generalize coalesced keys = calls at hpos
    induction calls generalizing s with
    | nil => rfl
    | cons c calls ih =>
      rw [foldl_cons, ih _ fun c hc => hpos c (mem_cons_of_mem _ hc)]
      rw [filterMap_cons]
      rcases entryText values c.1 with _ | text
      · rfl
      · simp [hpos c mem_cons_self, applyCall]

theorem foldl_scanBatch_eq (batches : List Batch) (s : ScanState κ) :
    batches.foldl (scanBatch reader write hash attrScope) s =
      ((batches.flatMap Batch.calls).foldl (applyCall reader write hash attrScope) s).addRows
        (batches.flatMap Batch.rows).length := by
  induction batches generalizing s with
  | nil => exact (ScanState.addRows_zero s).symm
  | cons batch batches ih =>
    rw [foldl_cons, ih, scanBatch_eq, foldl_applyCall_addRows, foldl_applyCall_addRows, ScanState.addRows_addRows,
      flatMap_cons, flatMap_cons, foldl_append, length_append]

/-- Row by row there is one call for each text. -/
theorem foldl_scanRow_eq (rows : List (Option Text)) (s : ScanState κ) : rows.foldl (scanRow reader write hash attrScope) s =
    ((rows.reduceOption.map (·, 1)).foldl (applyCall reader write hash attrScope) s).addRows rows.length := by
  induction rows generalizing s with
  | nil => exact (ScanState.addRows_zero s).symm
  | cons row rows ih =>
    rw [foldl_cons, ih, length_cons, add_comm]
    cases row with
    | none =>
      have hrow : scanRow reader write hash attrScope s none = s.addRows 1 := rfl
      rw [hrow, foldl_applyCall_addRows, ScanState.addRows_addRows, reduceOption_cons_of_none]
    | some json =>
      have hrow : scanRow reader write hash attrScope s (some json) =
          applyCall reader write hash attrScope (s.addRows 1) (json, 1) := rfl
      rw [hrow, applyCall_addRows, foldl_applyCall_addRows, ScanState.addRows_addRows, reduceOption_cons_of_some,
        map_cons, foldl_cons]

/-! ## Rows that are applied together -/

/-- The unit after some segments and part of one.
Source: `lib.rs` `analyze` -/
def Acc.Reachable (acc : Acc κ) : Prop :=
  ∃ keyCap valueCap widths run, acc = (Acc.new keyCap valueCap widths).scanAll hash run

/-- The unit follows some totals. -/
def Acc.Tracked (acc : Acc κ) : Prop := ∃ keyCap totals, acc.Follows keyCap totals

theorem Acc.follows_new (keyCap valueCap : ℕ) (widths : List ℤ) :
    (Acc.new keyCap valueCap widths : Acc κ).Follows keyCap fun _ => none where
  keys := ⟨_, .new keyCap, fun _ => .none⟩

theorem Acc.Tracked.observe {acc : Acc κ} (h : acc.Tracked) (o : Observation) : (acc.observe hash o).Tracked := by
  obtain ⟨keyCap, totals, hfollows⟩ := h
  exact ⟨keyCap, _, hfollows.observe hash o⟩

theorem Acc.Tracked.foldl_observe {acc : Acc κ} (h : acc.Tracked) (observations : List Observation) :
    (observations.foldl (Acc.observe hash) acc).Tracked := by
  obtain ⟨keyCap, totals, hfollows⟩ := h
  exact ⟨keyCap, _, hfollows.foldl_observe hash observations⟩

/-- What is reached only counts what was observed. -/
theorem Acc.Reachable.tracked {acc : Acc κ} (h : acc.Reachable hash) : acc.Tracked := by
  have hstep (step : ScanStep) {acc : Acc κ} (h : acc.Tracked) : (acc.step hash step).Tracked := by
    cases step with
    | addRows n =>
      obtain ⟨keyCap, totals, hfollows⟩ := h
      exact ⟨keyCap, totals, ⟨hfollows.keys⟩⟩
    | observe o => exact h.observe hash o
  have hsteps (steps : List ScanStep) {acc : Acc κ} (h : acc.Tracked) : (steps.foldl (Acc.step hash) acc).Tracked := by
    induction steps generalizing acc with
    | nil => exact h
    | cons step steps ih => exact ih (hstep step h)
  have hrun (run : List Segment) {acc : Acc κ} (h : acc.Tracked) : (acc.scanAll hash run).Tracked := by
    induction run generalizing acc with
    | nil => exact h
    | cons seg run ih =>
      obtain ⟨keyCap, totals, hfollows⟩ := h
      exact ih (hsteps seg.steps ⟨keyCap, totals, ⟨hfollows.keys⟩⟩)
  obtain ⟨keyCap, valueCap, widths, run, rfl⟩ := h
  exact hrun run ⟨keyCap, _, Acc.follows_new keyCap valueCap widths⟩

/-- The attributes of the text have distinct keys, and no value differs from itself. -/
structure Steady (json : Text) : Prop where
  nodup : ((fromCanonicalJson reader json).map Prod.fst).Nodup
  noNaN : ∀ kv ∈ fromCanonicalJson reader json, kv.2.hasNaN = false

theorem getAttr_of_mem {attrs : List (Text × AnyValue)} (h : (attrs.map Prod.fst).Nodup) {kv : Text × AnyValue} (hmem : kv ∈ attrs) :
    getAttr attrs kv.1 = some kv.2 := by
  have hfound : (attrs.find? fun e => e.1 = kv.1).isSome := find?_isSome.mpr ⟨kv, hmem, by simp⟩
  obtain ⟨e, he⟩ := Option.isSome_iff_exists.mp hfound
  have hkey : e.1 = kv.1 := by simpa using find?_some he
  rw [getAttr, he, Option.map_some, inj_on_of_nodup_map h (mem_of_find?_eq_some he) hmem hkey]

/-- A row after the same row starts a run at the values that differ from themselves. -/
theorem newRun_self {attrs : List (Text × AnyValue)} (h : (attrs.map Prod.fst).Nodup) {kv : Text × AnyValue} (hmem : kv ∈ attrs) :
    newRun (some attrs) kv.1 kv.2 = kv.2.hasNaN := by
  rw [newRun]
  simp [getAttr_of_mem h hmem, AnyValue.eq_self]

/-- Rows of equal texts may be applied together. -/
theorem apply_add {s : ScanState κ} (hsinks : ∀ sink ∈ s.sinks, sink.Tracked) {json : Text} (h : Steady reader json) (a c : ℕ) :
    apply reader write hash attrScope (apply reader write hash attrScope s json a) json c =
      apply reader write hash attrScope s json (a + c) := by
  rw [apply_eq, apply_eq, apply_eq, map_map]
  congr 1
  apply map_congr_left
  intro sink hsink
  obtain ⟨keyCap, totals, hfollows⟩ := hsinks sink hsink
  -- the second time no value starts a run
  have hsecond : observationsOf write attrScope (some (fromCanonicalJson reader json)) (fromCanonicalJson reader json) c =
      (observationsOf write attrScope s.prev (fromCanonicalJson reader json) 0).map fun o =>
        { o with count := c, newRun := false } := by
    rw [observationsOf, observationsOf, map_map]
    apply map_congr_left
    intro kv hkv
    rw [newRun_self h.nodup hkv, h.noNaN kv hkv]
    rfl
  have hcount (n : ℕ) : observationsOf write attrScope s.prev (fromCanonicalJson reader json) n =
      (observationsOf write attrScope s.prev (fromCanonicalJson reader json) 0).map fun o => { o with count := n } := by
    rw [observationsOf, observationsOf, map_map]
    rfl
  have hagain := @Totals.observe_again _ _ hash sink.position
    (observationsOf write attrScope s.prev (fromCanonicalJson reader json) 0) a c totals
  rw [← hsecond, ← hcount, ← hcount, ← foldl_append] at hagain
  have hsame := hfollows.foldl_observe_congr hash hagain
  rw [foldl_append] at hsame
  exact hsame

theorem applyCall_tracked {s : ScanState κ} (h : ∀ sink ∈ s.sinks, sink.Tracked) (c : Text × ℕ) :
    ∀ sink ∈ (applyCall reader write hash attrScope s c).sinks, sink.Tracked := by
  intro sink hsink
  rw [applyCall, apply_eq] at hsink
  obtain ⟨before, hbefore, rfl⟩ := mem_map.mp hsink
  exact (h before hbefore).foldl_observe hash _

/-- A call is its rows one by one. -/
theorem applyCall_eq {s : ScanState κ} (hsinks : ∀ sink ∈ s.sinks, sink.Tracked) {json : Text} {n : ℕ} (hpos : 0 < n)
    (h : 2 ≤ n → Steady reader json) : applyCall reader write hash attrScope s (json, n) =
      ((List.replicate n json).map (·, 1)).foldl (applyCall reader write hash attrScope) s := by
  induction n generalizing s with
  | zero => exact absurd hpos (lt_irrefl 0)
  | succ n ih =>
    rw [replicate_succ, map_cons, foldl_cons]
    rcases Nat.eq_zero_or_pos n with rfl | hn
    · rfl
    · have hsteady := h (by omega)
      rw [← ih (applyCall_tracked reader write hash attrScope hsinks (json, 1)) hn fun _ => hsteady, add_comm n 1]
      exact (apply_add reader write hash attrScope hsinks hsteady 1 n).symm

theorem foldl_applyCall_eq {s : ScanState κ} (hsinks : ∀ sink ∈ s.sinks, sink.Tracked) {calls : List (Text × ℕ)}
    (h : ∀ c ∈ calls, 0 < c.2 ∧ (2 ≤ c.2 → Steady reader c.1)) : calls.foldl (applyCall reader write hash attrScope) s =
      ((expand calls).map (·, 1)).foldl (applyCall reader write hash attrScope) s := by
  induction calls generalizing s with
  | nil => rfl
  | cons c calls ih =>
    obtain ⟨hpos, hsteady⟩ := h c mem_cons_self
    rw [foldl_cons, ih (applyCall_tracked reader write hash attrScope hsinks c) fun c hc => h c (mem_cons_of_mem _ hc),
      applyCall_eq reader write hash attrScope hsinks hpos hsteady, expand_cons, map_append, foldl_append]

/-! ## One run is one run -/

/-- Each row is a batch, but for two neighbours that are in one. -/
def pairBatches (before : List (Option Text)) (json : Text) (after : List (Option Text)) : List Batch :=
  before.map (fun row => .utf8 [row]) ++ .utf8 [some json, some json] :: after.map fun row => .utf8 [row]

theorem rows_pairBatches (before : List (Option Text)) (json : Text) (after : List (Option Text)) :
    (pairBatches before json after).flatMap Batch.rows = before ++ [some json, some json] ++ after := by
  have hsingle (rows : List (Option Text)) : (rows.map fun row => Batch.utf8 [row]).flatMap Batch.rows = rows := by
    induction rows with
    | nil => rfl
    | cons row rows ih => rw [map_cons, flatMap_cons, ih]; rfl
  rw [pairBatches, flatMap_append, flatMap_cons, hsingle, hsingle]
  simp [Batch.rows]

theorem calls_pairBatches (before : List (Option Text)) (json : Text) (after : List (Option Text)) :
    (pairBatches before json after).flatMap Batch.calls =
      before.reduceOption.map (·, 1) ++ (json, 2) :: after.reduceOption.map (·, 1) := by
  have hsingle (rows : List (Option Text)) :
      (rows.map fun row => Batch.utf8 [row]).flatMap Batch.calls = rows.reduceOption.map (·, 1) := by
    induction rows with
    | nil => rfl
    | cons row rows ih =>
      rw [map_cons, flatMap_cons, ih]
      cases row <;> rfl
  have hpair : Batch.calls (.utf8 [some json, some json]) = [(json, 2)] := by
    simp [Batch.calls, coalesced, coalesce, coalesceFrom]
  rw [pairBatches, flatMap_append, flatMap_cons, hsingle, hsingle, hpair]
  rfl

omit [OrderTop κ] in
/-- Equal neighbours have a run for every value that differs from itself, and in one call they have none. -/
theorem countP_pair_lt {json : Text} (hnodup : ((fromCanonicalJson reader json).map Prod.fst).Nodup) {kv : Text × AnyValue}
    (hkv : kv ∈ fromCanonicalJson reader json) (hnan : kv.2.hasNaN = true) (before after : List (Text × ℕ))
    (prev : Option (List (Text × AnyValue))) :
    (callObservations reader write attrScope prev (before ++ (json, 2) :: after)).countP
        (fun o => o.newRun && hash o.name = hash (attrScope.keyPrefix ++ kv.1)) <
      (callObservations reader write attrScope prev (before ++ (json, 1) :: (json, 1) :: after)).countP
        fun o => o.newRun && hash o.name = hash (attrScope.keyPrefix ++ kv.1) := by
  induction before generalizing prev with
  | nil =>
    have hcount (count : ℕ) (p : Option (List (Text × AnyValue))) :
        (observationsOf write attrScope p (fromCanonicalJson reader json) count).countP
            (fun o => o.newRun && hash o.name = hash (attrScope.keyPrefix ++ kv.1)) =
          (fromCanonicalJson reader json).countP fun e =>
            newRun p e.1 e.2 && hash (attrScope.keyPrefix ++ e.1) = hash (attrScope.keyPrefix ++ kv.1) := countP_map
    have hagain : 0 < (fromCanonicalJson reader json).countP fun e =>
        newRun (some (fromCanonicalJson reader json)) e.1 e.2 &&
          hash (attrScope.keyPrefix ++ e.1) = hash (attrScope.keyPrefix ++ kv.1) := by
      rw [countP_pos_iff]
      exact ⟨kv, hkv, by simp [newRun_self hnodup hkv, hnan]⟩
    simp only [nil_append, callObservations, countP_append, hcount]
    omega
  | cons c before ih =>
    simp only [cons_append, callObservations, countP_append]
    exact Nat.add_lt_add_left (ih _) _

/-- The sinks end in the state of a scan row by row, for every list of them, every split into batches and every
encoding, if and only if no text with a NaN is twice in neighbouring rows. -/
theorem scan_exact {rows : List (Option Text)}
    (hdistinct : ∀ json, some json ∈ rows → ((fromCanonicalJson reader json).map Prod.fst).Nodup) :
    (∀ sinks : List (Acc κ), (∀ sink ∈ sinks, sink.Reachable hash) → ∀ batches : List Batch, batches.flatMap Batch.rows = rows →
        scanColumn reader write hash attrScope sinks batches = scanRows reader write hash attrScope sinks rows) ↔
      ∀ json, [some json, some json] <:+: rows → ∀ kv ∈ fromCanonicalJson reader json, kv.2.hasNaN = false := by
  constructor
  · intro h json hin kv hkv
    by_contra hnan
    rw [Bool.not_eq_false] at hnan
    obtain ⟨before, after, rfl⟩ := hin
    have hnodup := hdistinct json (by simp)
    have hlt := countP_pair_lt reader write hash attrScope hnodup hkv hnan (before.reduceOption.map (·, 1))
      (after.reduceOption.map (·, 1)) none
    set together := callObservations reader write attrScope none
      (before.reduceOption.map (·, 1) ++ (json, 2) :: after.reduceOption.map (·, 1)) with htogether
    set apart := callObservations reader write attrScope none
      (before.reduceOption.map (·, 1) ++ (json, 1) :: (json, 1) :: after.reduceOption.map (·, 1)) with hapart
    -- a new unit with room for all keys
    set sink : Acc κ := (Acc.new (together.length + apart.length) 1 []).beginSegment 0 0 with hsink
    have hfollows : sink.Follows (together.length + apart.length) fun _ => none := ⟨(Acc.follows_new _ 1 []).keys⟩
    have hsame := h [sink] (by
      intro s hs
      obtain rfl := mem_singleton.mp hs
      exact ⟨_, 1, [], [⟨0, 0, []⟩], rfl⟩) (pairBatches before json after) (rows_pairBatches before json after)
    rw [scanColumn, scanRows, foldl_scanBatch_eq, foldl_scanRow_eq, calls_pairBatches, rows_pairBatches] at hsame
    have hreduce : (before ++ [some json, some json] ++ after).reduceOption.map (fun text => (text, 1)) =
        before.reduceOption.map (·, 1) ++ (json, 1) :: (json, 1) :: after.reduceOption.map (·, 1) := by
      simp [reduceOption_append, reduceOption_cons_of_some]
    rw [hreduce, ScanState.addRows, ScanState.addRows, foldl_applyCall_sinks, foldl_applyCall_sinks, ← htogether, ← hapart] at hsame
    have hkeys : (together.foldl (Acc.observe hash) sink).keys = (apart.foldl (Acc.observe hash) sink).keys := by
      simpa [Acc.addRows] using congrArg (fun sinks => sinks.map Acc.keys) hsame
    have hruns := hfollows.runs_of_room hash together (Nat.le_add_right _ _)
      (hash (attrScope.keyPrefix ++ kv.1))
    have hruns' := hfollows.runs_of_room hash apart (Nat.le_add_left _ _)
      (hash (attrScope.keyPrefix ++ kv.1))
    rw [hkeys, hruns'] at hruns
    omega
  · intro h sinks hsinks batches hbatches
    have hreads : Reads (batches.flatMap Batch.calls) rows := by
      rw [← hbatches]
      clear hbatches
      induction batches with
      | nil => exact .nil
      | cons batch batches ih => exact batch.calls_reads.append ih
    have htracked : ∀ sink ∈ sinks, sink.Tracked := fun sink hsink => (hsinks sink hsink).tracked hash
    have hone : (batches.flatMap Batch.calls).foldl (applyCall reader write hash attrScope) ⟨sinks, none⟩ = _ :=
      foldl_applyCall_eq reader write hash attrScope htracked fun c hc =>
        ⟨hreads.pos c hc, fun hn =>
          have hin := hreads.neighbours c hc hn
          ⟨hdistinct c.1 (hin.subset mem_cons_self), h c.1 hin⟩⟩
    rw [scanColumn, scanRows, foldl_scanBatch_eq, foldl_scanRow_eq, hone, hreads.expand_eq, hbatches]

/-! ### A label, and a NaN -/

def nanText : Text := "\x7b\"x\":\x7b\"$f\":\"nan\"\x7d\x7d".toList

def labelText : Text := "\x7b\"k\":\"v\"\x7d".toList

/-- The library on two documents. -/
def smallReader : JsonReader where
  document text :=
    if text = nanText then some (.map [("x".toList, .map [("$f".toList, .str "nan".toList)])])
    else if text = labelText then some (.map [("k".toList, .str "v".toList)])
    else none
  members _ := none

def nanWrite (_ : Json) : Text := "\x7b\"$f\":\"nan\"\x7d".toList

/-- A NaN in one column and in a dictionary: both scans end in the same state. -/
theorem scan_exact_label : scanColumn smallReader nanWrite lengthHash .attributes [begun]
      [.utf8 [some labelText], .dictionary [some 2, some 2, none] [none, some nanText, some labelText]] =
    scanRows smallReader nanWrite lengthHash .attributes [begun] [some labelText, some labelText, some labelText, none] := by
  have hdistinct : ∀ json, some json ∈ [some labelText, some labelText, some labelText, none] →
      ((fromCanonicalJson smallReader json).map Prod.fst).Nodup := by
    intro json hjson
    obtain rfl : json = labelText := by simpa using hjson
    decide
  refine (scan_exact smallReader nanWrite lengthHash .attributes hdistinct).mpr ?_ [begun] ?_ _ (by decide)
  · intro json hin kv hkv
    obtain rfl : json = labelText := by simpa using hin.subset mem_cons_self
    obtain rfl := mem_singleton.mp hkv
    rfl
  · intro sink hsink
    obtain rfl := mem_singleton.mp hsink
    exact ⟨4, 4, [], [⟨0, 0, []⟩], rfl⟩

/-- A NaN twice in a batch has one run, and two runs in two batches or row by row. -/
theorem scan_coalesces_nan :
    scanColumn smallReader nanWrite lengthHash .attributes [begun] [.utf8 [some nanText, some nanText]] ≠
        scanRows smallReader nanWrite lengthHash .attributes [begun] [some nanText, some nanText] ∧
      scanColumn smallReader nanWrite lengthHash .attributes [begun] [.utf8 [some nanText], .utf8 [some nanText]] =
        scanRows smallReader nanWrite lengthHash .attributes [begun] [some nanText, some nanText] := by
  decide

end

end Imbh.Attrstats
