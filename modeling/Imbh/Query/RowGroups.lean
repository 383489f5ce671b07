import Imbh.Query.Ranges

/-!
# Pruning a segment file

A segment file has row groups, with statistics of their columns and bloom filters. The provider takes
a bloom probe from each filter that names the bytes an id column can have, skips a file whose blooms
rule out one of the probes, and reads only the row groups that the range probes leave, and of those
the rows of the index selection.

* `openSegment_reads` — a row that satisfies the filters is read.
-/

namespace Imbh.Query

open Lib List Option

/-! ## Bloom probes -/

/-- Source: `provider.rs` `column_name` -/
def columnName : Expr → Option Text
  | .column name => some name
  | .cast e _ => columnName e
  | _ => none

/-- Source: `provider.rs` `binary_literal_bytes` -/
def binaryLiteralBytes : Expr → Option Bytes
  | .literal (.binary (some b)) => some b
  | .cast e _ => binaryLiteralBytes e
  | _ => none

/-- Source: `provider.rs` `bloom_id_eq_sides` -/
def bloomIdEqSides (colSide litSide : Expr) (bloomColumns : List Text) : Option (Text × Bytes) := do
  let name ← columnName colSide
  if name ∈ bloomColumns then
    let bytes ← binaryLiteralBytes litSide
    pure (name, bytes)
  else none

/-- Source: `provider.rs` `bloom_id_eq` -/
def bloomIdEq (left : Expr) (op : Operator) (right : Expr) (bloomColumns : List Text) :
    Option (Text × Bytes) :=
  if op = .eq then
    (bloomIdEqSides left right bloomColumns).or (bloomIdEqSides right left bloomColumns)
  else none

/-- Source: `provider.rs` `bloom_probe` -/
def bloomProbe (bloomColumns : List Text) : Expr → Option (Text × List Bytes)
  | .binary left .or right =>
      match bloomProbe bloomColumns left, bloomProbe bloomColumns right with
      | some (column, values), some (rightColumn, rightValues) =>
          if column = rightColumn then some (column, values ++ rightValues) else none
      | _, _ => none
  | .binary left op right => (bloomIdEq left op right bloomColumns).map fun (c, v) => (c, [v])
  | .inList e list negated =>
      if negated || list.isEmpty then none
      else
        match columnName e with
        | none => none
        | some name =>
            if name ∈ bloomColumns then (list.mapM binaryLiteralBytes).map fun vs => (name, vs)
            else none
  | _ => none

/-- The types of the casts around a column or a literal. -/
def castTypes : Expr → List DataType
  | .cast e t => t :: castTypes e
  | _ => []

/-- The types of the casts that a bloom probe looks through. -/
def probedCasts : Expr → List DataType
  | .binary left .or right => probedCasts left ++ probedCasts right
  | .binary left _ right => castTypes left ++ castTypes right
  | .inList e list _ => castTypes e ++ list.flatMap castTypes
  | _ => []

theorem bloomProbe_binary {op : Operator} (h : op ≠ .or) (bloomColumns : List Text)
    (left right : Expr) : bloomProbe bloomColumns (.binary left op right) =
      (bloomIdEq left op right bloomColumns).map fun (c, v) => (c, [v]) := by
  cases op <;> first | rfl | exact absurd rfl h

theorem probedCasts_binary {op : Operator} (h : op ≠ .or) (left right : Expr) :
    probedCasts (.binary left op right) = castTypes left ++ castTypes right := by
  cases op <;> first | rfl | exact absurd rfl h

/-- A cast to the type keeps the bytes. -/
def DataType.keepsBytes : DataType → Bool
  | .utf8 | .binary _ => true
  | _ => false

/-- The bloom probes look only through casts that keep the bytes. -/
def BloomCastsKeep (bloomColumns : List Text) (filters : List Expr) : Prop :=
  ∀ e ∈ filters, (bloomProbe bloomColumns e).isSome → ∀ t ∈ probedCasts e, t.keepsBytes = true

/-- The casts between texts and bytes that are documented to keep the bytes; what does not fit, or is refused, is NULL. -/
structure Rest.KeepsBytes (rest : Rest) : Prop where
  isBytes : ∀ v t, v.isBytes = true → t.keepsBytes = true → (rest.cast v t).isBytes = true
  bytes : ∀ v t b, v.isBytes = true → t.keepsBytes = true → (rest.cast v t).bytes = some b → v.bytes = some b

section

variable {rest : Rest} (row : ColumnValues)

/-- A column under casts that keep its bytes. -/
theorem columnName_eval (hrest : rest.KeepsBytes) : ∀ {e : Expr} {name : Text}, columnName e = some name →
    (row name).isBytes = true → (∀ t ∈ castTypes e, t.keepsBytes = true) →
      (e.eval rest row).isBytes = true ∧
        ∀ b, (e.eval rest row).bytes = some b → (row name).bytes = some b
  | .column _, _, h, hrow, _ => by
      obtain rfl := some.inj h
      rw [Expr.eval]
      exact ⟨hrow, fun _ hb => hb⟩
  | .cast e t, _, h, hrow, hcasts => by
      obtain ⟨hbytes, hsame⟩ := columnName_eval hrest (e := e) h hrow fun t' ht' =>
        hcasts t' (mem_cons_of_mem _ ht')
      have ht := hcasts t mem_cons_self
      rw [Expr.eval]
      exact ⟨hrest.isBytes _ t hbytes ht, fun b hb => hsame b (hrest.bytes _ t b hbytes ht hb)⟩

/-- A binary literal under casts that keep its bytes. -/
theorem binaryLiteralBytes_eval (hrest : rest.KeepsBytes) : ∀ {e : Expr} {l : Bytes}, binaryLiteralBytes e = some l →
    (∀ t ∈ castTypes e, t.keepsBytes = true) →
      (e.eval rest row).isBytes = true ∧ ∀ b, (e.eval rest row).bytes = some b → b = l
  | .literal (.binary (some _)), _, h, _ => by
      obtain rfl := some.inj h
      rw [Expr.eval]
      exact ⟨rfl, fun _ hb => (some.inj hb).symm⟩
  | .cast e t, _, h, hcasts => by
      obtain ⟨hbytes, hsame⟩ := binaryLiteralBytes_eval hrest (e := e) h fun t' ht' =>
        hcasts t' (mem_cons_of_mem _ ht')
      have ht := hcasts t mem_cons_self
      rw [Expr.eval]
      exact ⟨hrest.isBytes _ t hbytes ht, fun b hb => hsame b (hrest.bytes _ t b hbytes ht hb)⟩

/-- An equality of bytes. -/
theorem evalBinary_bytes {l r : ScalarValue} (hl : l.isBytes = true) (hr : r.isBytes = true) :
    evalBinary rest .eq l r = test (fun x y => x = y) l.bytes r.bytes := by
  cases l <;> simp only [ScalarValue.isBytes, Bool.false_eq_true] at hl <;> cases r <;>
    simp only [ScalarValue.isBytes, Bool.false_eq_true] at hr <;> rfl

/-- A column that equals a literal has its bytes. -/
theorem bytes_eq_of_test {l r : ScalarValue}
    (h : test (fun x y : Bytes => decide (x = y)) l.bytes r.bytes = .boolean (some true)) :
    ∃ b, l.bytes = some b ∧ r.bytes = some b := by
  obtain ⟨x, y, hx, hy, heq⟩ := test_eq_true.mp h
  obtain rfl := of_decide_eq_true heq
  exact ⟨x, hx, hy⟩

theorem eq_binary_of_bytes {v : Option Bytes} {value : ScalarValue} (h : value = .binary v) {b : Bytes}
    (hb : value.bytes = some b) : value = .binary (some b) := by
  subst h
  exact congrArg ScalarValue.binary hb

/-- One side of an equality with an id column, the other a literal. -/
theorem bloomIdEqSides_eval (hrest : rest.KeepsBytes) {bloomColumns : List Text}
    (hcolumns : ∀ c ∈ bloomColumns, ∃ v, row c = .binary v) {col lit : Expr} {name : Text}
    {value : Bytes} (h : bloomIdEqSides col lit bloomColumns = some (name, value))
    (hcol : ∀ t ∈ castTypes col, t.keepsBytes = true)
    (hlit : ∀ t ∈ castTypes lit, t.keepsBytes = true) :
    (col.eval rest row).isBytes = true ∧ (lit.eval rest row).isBytes = true ∧
      ∀ b, (col.eval rest row).bytes = some b → (lit.eval rest row).bytes = some b →
        row name = .binary (some value) := by
  obtain ⟨name', hname, h⟩ := bind_eq_some_iff.mp h
  split at h
  case isFalse => exact absurd h (by simp)
  rename_i hmem
  obtain ⟨bytes, hbytes, h⟩ := bind_eq_some_iff.mp h
  obtain ⟨rfl, rfl⟩ : name' = name ∧ bytes = value := by simpa using h
  obtain ⟨v, hv⟩ := hcolumns name' hmem
  have hrow : (row name').isBytes = true := by rw [hv, ScalarValue.isBytes]
  obtain ⟨hc, hcsame⟩ := columnName_eval row hrest hname hrow hcol
  obtain ⟨hl, hlsame⟩ := binaryLiteralBytes_eval row hrest hbytes hlit
  refine ⟨hc, hl, fun b hb hb' => ?_⟩
  rw [hlsame b hb'] at hb
  exact eq_binary_of_bytes hv (hcsame _ hb)

/-- The disjunction of two values of truth. -/
theorem evalOr_eq_true {a b : Option Bool} (h : evalOr a b = .boolean (some true)) :
    a = some true ∨ b = some true := by
  rcases a with _ | _ | _ <;> rcases b with _ | _ | _ <;> simp_all [evalOr]

/-- A membership in a list of literals. -/
theorem evalInList_eval (hrest : rest.KeepsBytes) {v : ScalarValue} (hv : v.isBytes = true) : ∀ {list : List Expr}
    {values : List Bytes}, list.mapM binaryLiteralBytes = some values →
      (∀ t ∈ list.flatMap castTypes, t.keepsBytes = true) →
        ∃ truth, evalInList rest v (evalAll rest row list) = .boolean truth ∧
          (truth = some true → ∃ b ∈ values, v.bytes = some b)
  | [], _, _, _ => ⟨some false, rfl, fun h => absurd h (by simp)⟩
  | e :: list, values, h, hcasts => by
      rw [mapM_cons] at h
      obtain ⟨l, hl, h⟩ := bind_eq_some_iff.mp h
      obtain ⟨ls, hls, h⟩ := bind_eq_some_iff.mp h
      obtain rfl := some.inj h
      rw [flatMap_cons] at hcasts
      obtain ⟨hbytes, hsame⟩ := binaryLiteralBytes_eval row hrest hl
        fun t ht => hcasts t (mem_append_left _ ht)
      obtain ⟨truth, htruth, hmem⟩ := evalInList_eval hrest hv hls
        fun t ht => hcasts t (mem_append_right _ ht)
      rw [evalAll, evalInList, evalBinary_bytes hv hbytes, htruth, test, orElse]
      refine ⟨_, rfl, fun htrue => ?_⟩
      rcases evalOr_eq_true (congrArg ScalarValue.boolean htrue) with heq | heq
      · obtain ⟨b, hb, hb'⟩ := bytes_eq_of_test (congrArg ScalarValue.boolean heq)
        exact ⟨l, mem_cons_self, hsame b hb' ▸ hb⟩
      · obtain ⟨b, hb, hb'⟩ := hmem heq
        exact ⟨b, mem_cons_of_mem _ hb, hb'⟩

/-- **A bloom probe is sound**: what the filter evaluates to is a truth value, and when it is TRUE the
column has one of the probed values. -/
theorem bloomProbe_eval (hrest : rest.KeepsBytes) {bloomColumns : List Text}
    (hcolumns : ∀ c ∈ bloomColumns, ∃ v, row c = .binary v) : ∀ {e : Expr} {name : Text}
    {values : List Bytes}, bloomProbe bloomColumns e = some (name, values) →
      (∀ t ∈ probedCasts e, t.keepsBytes = true) →
        ∃ truth, e.eval rest row = .boolean truth ∧
          (truth = some true → ∃ b ∈ values, row name = .binary (some b))
  | .binary left op right, name, values, h, hcasts => by
      by_cases hor : op = .or
      · subst hor
        rw [bloomProbe] at h
        rw [probedCasts] at hcasts
        split at h
        case h_2 => exact absurd h (by simp)
        rename_i column vs rightColumn rightVs hleft hright
        split at h
        case isFalse => exact absurd h (by simp)
        rename_i hsame
        subst hsame
        obtain ⟨rfl, rfl⟩ : column = name ∧ vs ++ rightVs = values := by simpa using h
        obtain ⟨truth, htruth, hmem⟩ := bloomProbe_eval hrest hcolumns (e := left) hleft
          fun t ht => hcasts t (mem_append_left _ ht)
        obtain ⟨truth', htruth', hmem'⟩ := bloomProbe_eval hrest hcolumns (e := right) hright
          fun t ht => hcasts t (mem_append_right _ ht)
        rw [Expr.eval, htruth, htruth']
        refine ⟨_, rfl, fun htrue => ?_⟩
        rcases evalOr_eq_true (congrArg ScalarValue.boolean htrue) with heq | heq
        · obtain ⟨b, hb, hrow⟩ := hmem heq
          exact ⟨b, mem_append_left _ hb, hrow⟩
        · obtain ⟨b, hb, hrow⟩ := hmem' heq
          exact ⟨b, mem_append_right _ hb, hrow⟩
      · rw [bloomProbe_binary hor] at h
        rw [probedCasts_binary hor] at hcasts
        obtain ⟨⟨name', value⟩, h, heq⟩ := map_eq_some_iff.mp h
        obtain ⟨rfl, rfl⟩ : name' = name ∧ [value] = values := by simpa using heq
        unfold bloomIdEq at h
        split at h
        case isFalse => exact absurd h (by simp)
        rename_i heq
        subst heq
        have hl : ∀ t ∈ castTypes left, t.keepsBytes = true :=
          fun t ht => hcasts t (mem_append_left _ ht)
        have hr : ∀ t ∈ castTypes right, t.keepsBytes = true :=
          fun t ht => hcasts t (mem_append_right _ ht)
        rcases or_eq_some_iff.mp h with h | ⟨-, h⟩
        · obtain ⟨hcol, hlit, hsame⟩ := bloomIdEqSides_eval row hrest hcolumns h hl hr
          rw [Expr.eval, evalBinary_bytes hcol hlit]
          refine ⟨_, rfl, fun htrue => ⟨value, mem_singleton_self _, ?_⟩⟩
          obtain ⟨b, hb, hb'⟩ := bytes_eq_of_test (congrArg ScalarValue.boolean htrue)
          exact hsame b hb hb'
        · obtain ⟨hcol, hlit, hsame⟩ := bloomIdEqSides_eval row hrest hcolumns h hr hl
          rw [Expr.eval, evalBinary_bytes hlit hcol]
          refine ⟨_, rfl, fun htrue => ⟨value, mem_singleton_self _, ?_⟩⟩
          obtain ⟨b, hb, hb'⟩ := bytes_eq_of_test (congrArg ScalarValue.boolean htrue)
          exact hsame b hb' hb
  | .inList e list negated, name, values, h, hcasts => by
      rw [bloomProbe] at h
      rw [probedCasts] at hcasts
      split at h
      case isTrue => exact absurd h (by simp)
      rename_i hplain
      split at h
      case h_1 => exact absurd h (by simp)
      rename_i name' hname
      split at h
      case isFalse => exact absurd h (by simp)
      rename_i hmem
      obtain ⟨vs, hvs, heq⟩ := map_eq_some_iff.mp h
      obtain ⟨rfl, rfl⟩ : name' = name ∧ vs = values := by simpa using heq
      obtain ⟨v, hv⟩ := hcolumns name' hmem
      obtain ⟨hbytes, hsame⟩ := columnName_eval row hrest hname (by rw [hv, ScalarValue.isBytes])
        fun t ht => hcasts t (mem_append_left _ ht)
      obtain ⟨truth, htruth, hin⟩ := evalInList_eval row hrest hbytes hvs
        fun t ht => hcasts t (mem_append_right _ ht)
      have hneg : negated = false := by
        cases negated with
        | false => rfl
        | true => exact absurd rfl hplain
      refine ⟨truth, ?_, fun htrue => ?_⟩
      · rw [Expr.eval, htruth, hneg]
        rfl
      · obtain ⟨b, hb, hb'⟩ := hin htrue
        exact ⟨b, hb, eq_binary_of_bytes hv (hsame b hb')⟩

end

/-! ## The file -/

/-- A row group, with what is known of its columns before it is read. -/
structure RowGroup where
  rows : List ColumnValues
  statistics : Text → Option (ℤ × ℤ)
  bloom : Text → Option (Bytes → Bool)

/-- The statistics and the blooms of the row group contain its values. -/
structure RowGroup.Sound (g : RowGroup) : Prop where
  statistics : ∀ row ∈ g.rows, ∀ c t x, HasI64 t (row c) (some x) → ∀ min max,
    g.statistics c = some (min, max) → min ≤ x ∧ x ≤ max
  bloom : ∀ row ∈ g.rows, ∀ c b, row c = .binary (some b) → ∀ check, g.bloom c = some check →
    check b = true

structure SegmentFile where
  columns : List Text
  rowGroups : List RowGroup

def SegmentFile.rows (file : SegmentFile) : List ColumnValues := file.rowGroups.flatMap RowGroup.rows

/-- Source: parquet `RowSelector` -/
structure RowSelector where
  rowCount : ℕ
  skip : Bool

/-- Source: parquet `RowSelection` -/
abbrev RowSelection : Type := List RowSelector

/-- Which rows of the file are selected. -/
def selected (sel : RowSelection) : List Bool :=
  sel.flatMap fun s => List.replicate s.rowCount (!s.skip)

inductive RowGroups
  | all
  | none
  | subset (keep : List ℕ)

/-- Some probe proves that the row group has no row.
Source: `provider.rs` `surviving_row_groups`, `excluded` -/
def RowGroup.excluded (resolved : List ColumnRangeProbe) (g : RowGroup) : Bool :=
  resolved.any fun p =>
    match g.statistics p.column with
    | some (min, max) => p.probe.excludes min max
    | .none => false

/-- Source: `provider.rs` `surviving_row_groups` -/
def survivingRowGroups (file : SegmentFile) (rangeProbes : List ColumnRangeProbe) : RowGroups :=
  if file.rowGroups = [] ∨ rangeProbes = [] then .all
  else
    let resolved := rangeProbes.filter fun p => p.column ∈ file.columns
    if resolved = [] then .all
    else
      let keep := (file.rowGroups.zipIdx.filter fun g => !g.1.excluded resolved).map Prod.snd
      if keep = [] then .none
      else if keep.length = file.rowGroups.length then .all
      else .subset keep

/-- Source: `provider.rs` `row_group_selection` -/
def rowGroupSelection (file : SegmentFile) (keep : List ℕ) : RowSelection :=
  file.rowGroups.zipIdx.map fun g => { rowCount := g.1.rows.length, skip := !decide (g.2 ∈ keep) }

/-- Source: `provider.rs` `bloom_rules_out` -/
def bloomRulesOut (file : SegmentFile) (bloomProbes : List (Text × List Bytes)) : Bool :=
  bloomProbes.any fun (column, values) =>
    !values.isEmpty && decide (column ∈ file.columns) && !file.rowGroups.isEmpty &&
      file.rowGroups.all fun g =>
        match g.bloom column with
        | none => false
        | some check => values.all fun v => !check v

/-- Which rows of the file the reader yields; `none` if the file is skipped.
Source: `provider.rs` `open_segment` -/
def openSegment (intersection : RowSelection → RowSelection → RowSelection) (file : SegmentFile)
    (selection : Option RowSelection) (bloomProbes : List (Text × List Bytes))
    (rangeProbes : List ColumnRangeProbe) : Option (List Bool) :=
  if !bloomProbes.isEmpty && bloomRulesOut file bloomProbes then none
  else
    match survivingRowGroups file rangeProbes with
    | .none => none
    | .all =>
        match selection with
        | none => some (List.replicate file.rows.length true)
        | some sel => some (selected sel)
    | .subset keep =>
        match selection with
        | none => some (selected (rowGroupSelection file keep))
        | some sel => some (selected (intersection (rowGroupSelection file keep) sel))

/-! ## What is read -/

/-- A row of the file is in one of its row groups, and the selection of row groups has it when it has
the group. -/
theorem rowGroupSelection_get (keep : List ℕ) : ∀ (gs : List RowGroup) (k i : ℕ) {row : ColumnValues},
    (gs.flatMap RowGroup.rows)[i]? = some row → ∃ j g, gs[j]? = some g ∧ row ∈ g.rows ∧
      (selected ((gs.zipIdx k).map fun g =>
        { rowCount := g.1.rows.length, skip := !decide (g.2 ∈ keep) }))[i]? =
          some (decide (k + j ∈ keep))
  | [], _, _, _, h => absurd h (by simp)
  | g :: gs, k, i, row, h => by
      rw [zipIdx_cons, map_cons, selected, flatMap_cons]
      rw [flatMap_cons] at h
      by_cases hi : i < g.rows.length
      · rw [getElem?_append_left hi] at h
        refine ⟨0, g, rfl, mem_of_getElem? h, ?_⟩
        rw [getElem?_append_left (by simpa using hi), getElem?_replicate, if_pos hi,
          Bool.not_not, Nat.add_zero]
      · rw [getElem?_append_right (not_lt.mp hi)] at h
        obtain ⟨j, g', hj, hrow, hsel⟩ := rowGroupSelection_get keep gs (k + 1) _ h
        refine ⟨j + 1, g', hj, hrow, ?_⟩
        rw [getElem?_append_right (by simpa using hi), length_replicate]
        rw [selected] at hsel
        rw [hsel, Nat.add_right_comm, Nat.add_assoc]

theorem length_rowGroupSelection (file : SegmentFile) (keep : List ℕ) :
    (selected (rowGroupSelection file keep)).length = file.rows.length := by
  have h : ∀ (gs : List RowGroup) (k : ℕ), (selected ((gs.zipIdx k).map fun g =>
      { rowCount := g.1.rows.length, skip := !decide (g.2 ∈ keep) })).length =
        (gs.flatMap RowGroup.rows).length := by
    intro gs
    induction gs with
    | nil => exact fun _ => rfl
    | cons g gs ih =>
      intro k
      rw [zipIdx_cons, map_cons, selected, flatMap_cons, length_append,
        length_replicate, flatMap_cons, length_append, ← ih (k + 1), selected]
  exact h file.rowGroups 0

section

variable {schema : Schema} {rest : Rest} {row : ColumnValues} {filters : List Expr}
  (htrue : ∀ e ∈ filters, e.IsTrue rest row)

include htrue

/-- A row group with a row that makes the filters TRUE is not excluded. -/
theorem not_excluded (hrest : rest.KeepsTicks) (hzones : ∀ e ∈ filters, zonesKeep schema e = true)
    (htyped : Typed schema row) {g : RowGroup} (hg : g.Sound) (hrow : row ∈ g.rows)
    {resolved : List ColumnRangeProbe}
    (hsub : resolved ⊆ filters.filterMap (statsRangeProbe schema)) : g.excluded resolved = false := by
  rw [RowGroup.excluded, List.any_eq_false]
  intro p hp hexcl
  obtain ⟨e, he, hprobe⟩ := List.mem_filterMap.mp (hsub hp)
  obtain ⟨t, x, hx, hholds⟩ := statsRangeProbe_sound htyped hrest (hzones e he) hprobe (htrue e he)
  split at hexcl
  · rename_i min max hstats
    obtain ⟨hmin, hmax⟩ := hg.statistics row hrow _ t x hx min max hstats
    exact RangeProbe.not_holds_of_excludes hexcl hmin hmax hholds
  · exact absurd hexcl (by simp)

/-- The blooms do not rule out a file with a row that makes the filters TRUE. -/
theorem not_bloomRulesOut (hrest : rest.KeepsBytes) {bloomColumns : List Text}
    (hcolumns : ∀ c ∈ bloomColumns, ∃ v, row c = .binary v)
    (hcasts : BloomCastsKeep bloomColumns filters) {file : SegmentFile}
    (hfile : ∀ g ∈ file.rowGroups, g.Sound) {g : RowGroup} (hg : g ∈ file.rowGroups)
    (hrow : row ∈ g.rows) :
    bloomRulesOut file (filters.filterMap (bloomProbe bloomColumns)) = false := by
  rw [bloomRulesOut, List.any_eq_false]
  rintro ⟨column, values⟩ hp hout
  obtain ⟨e, he, hprobe⟩ := List.mem_filterMap.mp hp
  obtain ⟨truth, htruth, hmem⟩ := bloomProbe_eval row hrest hcolumns hprobe
    (hcasts e he (by rw [hprobe, Option.isSome_some]))
  have htrue : truth = some true := ScalarValue.boolean.inj (htruth.symm.trans (htrue e he))
  obtain ⟨b, hb, hcol⟩ := hmem htrue
  simp only [Bool.and_eq_true] at hout
  have hall := List.all_eq_true.mp hout.2 g hg
  split at hall
  · exact absurd hall (by simp)
  · rename_i check hcheck
    have hnot := List.all_eq_true.mp hall b hb
    rw [(hfile g hg).bloom row hrow column b hcol check hcheck] at hnot
    exact absurd hnot (by simp)

end

/-- **No row is lost by pruning its file**: a row that makes the filters TRUE, and that the index
selection has if there is one, is read, when the bloom probes look only through casts that keep the
bytes. -/
theorem openSegment_reads {intersection : RowSelection → RowSelection → RowSelection}
    (hint : ∀ a b : RowSelection, (selected a).length = (selected b).length →
      selected (intersection a b) = List.zipWith (· && ·) (selected a) (selected b))
    {file : SegmentFile} (hfile : ∀ g ∈ file.rowGroups, g.Sound) {selection : Option RowSelection}
    (hlength : ∀ sel, selection = some sel → (selected sel).length = file.rows.length)
    {bloomColumns : List Text} {schema : Schema} {filters : List Expr}
    (hcasts : BloomCastsKeep bloomColumns filters) (hzones : ∀ e ∈ filters, zonesKeep schema e = true) {rest : Rest}
    (hticks : rest.KeepsTicks) (hbytes : rest.KeepsBytes) {i : ℕ} {row : ColumnValues}
    (hrow : file.rows[i]? = some row) (htyped : Typed schema row)
    (hcolumns : ∀ c ∈ bloomColumns, ∃ v, row c = .binary v)
    (htrue : ∀ e ∈ filters, e.IsTrue rest row)
    (hselected : ∀ sel, selection = some sel → (selected sel)[i]? = some true) :
    ∃ read, openSegment intersection file selection (filters.filterMap (bloomProbe bloomColumns))
      (filters.filterMap (statsRangeProbe schema)) = some read ∧ read[i]? = some true := by
  obtain ⟨hi, -⟩ := List.getElem?_eq_some_iff.mp hrow
  obtain ⟨j₀, g₀, hj₀, hrow₀, -⟩ := rowGroupSelection_get [] file.rowGroups 0 i hrow
  have hbloom := not_bloomRulesOut htrue hbytes hcolumns hcasts hfile (List.mem_of_getElem? hj₀) hrow₀
  have hall : (List.replicate file.rows.length true)[i]? = some true := by
    rw [List.getElem?_replicate, if_pos hi]
  -- all row groups are read, or only those that are kept, and then that of the row is
  have hgroups : survivingRowGroups file (filters.filterMap (statsRangeProbe schema)) = .all ∨
      ∃ keep, survivingRowGroups file (filters.filterMap (statsRangeProbe schema)) = .subset keep ∧
        (selected (rowGroupSelection file keep))[i]? = some true := by
    unfold survivingRowGroups
    split
    · exact Or.inl rfl
    · dsimp only
      split
      · exact Or.inl rfl
      · set resolved := (filters.filterMap (statsRangeProbe schema)).filter
          fun p => p.column ∈ file.columns with hresolved
        set keep := (file.rowGroups.zipIdx.filter fun g => !g.1.excluded resolved).map Prod.snd
          with hkeep
        obtain ⟨j, g, hj, hg, hsel⟩ := rowGroupSelection_get keep file.rowGroups 0 i hrow
        have hmem : j ∈ keep := by
          have hnot : g.excluded resolved = false :=
            not_excluded htrue hticks hzones htyped (hfile g (List.mem_of_getElem? hj)) hg
              fun p hp => List.mem_of_mem_filter hp
          refine List.mem_map.mpr ⟨(g, j), List.mem_filter.mpr ⟨?_, by rw [hnot]; rfl⟩, rfl⟩
          rw [List.mem_zipIdx_iff_getElem?]
          exact hj
        have hne : keep ≠ [] := List.ne_nil_of_mem hmem
        rw [if_neg hne]
        split
        · exact Or.inl rfl
        · refine Or.inr ⟨keep, rfl, ?_⟩
          rw [rowGroupSelection, hsel, Nat.zero_add, decide_eq_true hmem]
  unfold openSegment
  rw [hbloom, Bool.and_false, if_neg Bool.false_ne_true]
  rcases hgroups with hgroups | ⟨keep, hgroups, hsel⟩ <;> rw [hgroups]
  · cases selection with
    | none => exact ⟨_, rfl, hall⟩
    | some sel => exact ⟨_, rfl, hselected sel rfl⟩
  · cases selection with
    | none => exact ⟨_, rfl, hsel⟩
    | some sel =>
      refine ⟨_, rfl, ?_⟩
      rw [hint _ _ ((length_rowGroupSelection file keep).trans (hlength sel rfl).symm),
        List.getElem?_zipWith, hsel, hselected sel rfl]
      rfl

/-! ### Two files -/

/-- A selection of the rows of a mask. -/
def selectRows (mask : List Bool) : RowSelection := mask.map fun x => { rowCount := 1, skip := !x }

theorem selected_selectRows (mask : List Bool) : selected (selectRows mask) = mask := by
  induction mask with
  | nil => rfl
  | cons x mask ih =>
    unfold selected selectRows at ih ⊢
    rw [map_cons, flatMap_cons, ih]
    simp

/-- The intersection of two selections, row by row. -/
def intersectRows (a b : RowSelection) : RowSelection :=
  selectRows (List.zipWith (· && ·) (selected a) (selected b))

/-- Bytes as a text, a text as an integer and an integer as its bytes, as the engine casts them. -/
def castNumbers : Rest where
  cast
    | .binary v, .utf8 => .utf8 (v.bind decodeText)
    | .utf8 v, .binary _ => .binary (v.map encodeText)
    | .utf8 (some s), .int64 => .int64 ((parseI64 s).map Int64.toInt)
    | .int64 (some n), .binary _ => .binary (some (leBytes 8 n.toNat))
    | .timestamp _ v _, .int64 => .int64 v
    | .timestamp _ v _, .timestamp u tz => .timestamp u v tz
    | v, _ => v
  binary := fun _ v _ => v
  function := fun _ _ => .boolean none
  other := fun _ _ => .boolean none

theorem keepsTicks_castNumbers : castNumbers.KeepsTicks where
  int64 v := by cases v <;> rfl
  ticks _ _ _ := rfl
  zone _ _ _ _ _ := rfl

theorem keepsBytes_castNumbers : castNumbers.KeepsBytes where
  isBytes v t hv ht := by
    cases v <;> simp only [ScalarValue.isBytes, Bool.false_eq_true] at hv <;> rename_i v <;> cases v <;> cases t <;>
      first | exact absurd ht Bool.false_ne_true | rfl
  bytes v t b hv ht hb := by
    cases v <;> simp only [ScalarValue.isBytes, Bool.false_eq_true] at hv <;> rename_i v <;> cases v <;> cases t <;>
      first | exact absurd ht Bool.false_ne_true | exact hb | skip
    obtain ⟨s, hs, rfl⟩ := map_eq_some_iff.mp hb
    exact congrArg some (encodeText_of_decodeText hs).symm

/-- A trace id of sixteen digits. -/
def digitsId : Bytes := encodeText "0000000000000001".toList

def idRow (time : ℤ) (id : Option Bytes) : ColumnValues := fun c =>
  if c = "trace_id".toList then .binary id else .timestamp .nanosecond (some time) none

/-- A row group of one row; its bloom has no false positive. -/
def idGroup (time : ℤ) (id : Option Bytes) : RowGroup where
  rows := [idRow time id]
  statistics := fun c => if c = "start_time".toList then some (time, time) else none
  bloom := fun _ => some fun v => id = some v

theorem idGroup_sound (time : ℤ) (id : Option Bytes) : (idGroup time id).Sound := by
  constructor
  · intro row hrow c t x hx min max hstats
    obtain rfl := mem_singleton.mp hrow
    unfold idGroup at hstats
    dsimp only at hstats
    split at hstats
    case isFalse => exact absurd hstats (by simp)
    rename_i hc
    obtain ⟨rfl, rfl⟩ : time = min ∧ time = max := by simpa using hstats
    have hvalue : idRow time id c = .timestamp .nanosecond (some time) none := by
      rw [hc]
      exact if_neg (by decide)
    rw [hvalue] at hx
    cases hx
    exact ⟨le_rfl, le_rfl⟩
  · intro row hrow c b hb check hcheck
    obtain rfl := mem_singleton.mp hrow
    obtain rfl := some.inj hcheck
    unfold idRow at hb
    split at hb
    · exact decide_eq_true (ScalarValue.binary.inj hb)
    · exact absurd hb (by simp)

def digitsFile : SegmentFile where
  columns := ["start_time".toList, "trace_id".toList]
  rowGroups := [idGroup 5 none, idGroup 100 (some digitsId)]

theorem digitsFile_sound : ∀ g ∈ digitsFile.rowGroups, g.Sound := by
  intro g hg
  rcases mem_cons.mp hg with rfl | hg
  · exact idGroup_sound 5 none
  · rw [mem_singleton.mp hg]
    exact idGroup_sound 100 (some digitsId)

/-- `start_time >= 50 AND trace_id = X'…'` -/
def byTimeAndId : List Expr :=
  [.binary (.column "start_time".toList) .gtEq (.literal (.timestamp .nanosecond (some 50) none)),
    .binary (.column "trace_id".toList) .eq (.literal (.binary (some digitsId)))]

/-- A row is found by its id, after the row groups and the selection. -/
theorem openSegment_digits :
    ∃ read, openSegment intersectRows digitsFile (some (selectRows [false, true]))
      (byTimeAndId.filterMap (bloomProbe ["trace_id".toList]))
      (byTimeAndId.filterMap (statsRangeProbe [("start_time".toList, .timestamp .nanosecond none)])) =
        some read ∧ read[1]? = some true := by
  have hrow : digitsFile.rows[1]? = some (idRow 100 (some digitsId)) := rfl
  have htyped : Typed [("start_time".toList, .timestamp .nanosecond none)]
      (idRow 100 (some digitsId)) := by
    intro name t hfield _
    obtain ⟨f, hf, rfl⟩ := map_eq_some_iff.mp hfield
    have hname : f.1 = name := by simpa using find?_some hf
    rw [mem_singleton.mp (mem_of_find?_eq_some hf)] at hname ⊢
    exact ⟨some 100, hname ▸ .timestamp _ _ _⟩
  have hcolumns : ∀ c ∈ ["trace_id".toList], ∃ v, idRow 100 (some digitsId) c = .binary v := by
    intro c hc
    rw [mem_singleton.mp hc]
    exact ⟨_, rfl⟩
  have htrue : ∀ e ∈ byTimeAndId, e.IsTrue castNumbers (idRow 100 (some digitsId)) := by
    intro e he
    rcases mem_cons.mp he with rfl | he
    · rfl
    · rw [mem_singleton.mp he]
      exact test_eq_true.mpr ⟨digitsId, digitsId, rfl, rfl, decide_eq_true rfl⟩
  have hcasts : BloomCastsKeep ["trace_id".toList] byTimeAndId := by
    intro e he _ t ht
    rcases mem_cons.mp he with rfl | he
    · exact absurd ht not_mem_nil
    · rw [mem_singleton.mp he] at ht
      exact absurd ht not_mem_nil
  have hzones : ∀ e ∈ byTimeAndId, zonesKeep [("start_time".toList, .timestamp .nanosecond none)] e = true := by
    intro e he
    rcases mem_cons.mp he with rfl | he
    · rfl
    · rw [mem_singleton.mp he]
      rfl
  have hselection : ∀ sel, some (selectRows [false, true]) = some sel → selected sel = [false, true] :=
    fun sel hsel => some.inj hsel ▸ selected_selectRows _
  exact openSegment_reads (fun a b _ => selected_selectRows _) digitsFile_sound
    (fun sel hsel => by rw [hselection sel hsel]; rfl) hcasts hzones keepsTicks_castNumbers
    keepsBytes_castNumbers hrow htyped hcolumns htrue
    (fun sel hsel => by rw [hselection sel hsel]; rfl)

/-- `CAST(CAST(CAST(CAST(trace_id AS BYTEA) AS VARCHAR) AS BIGINT) AS BYTEA) = X'0100000000000000'` -/
def byNumber : Expr :=
  .binary (.cast (.cast (.cast (.cast (.column "trace_id".toList) (.binary none)) .utf8) .int64) (.binary none)) .eq
    (.literal (.binary (some (leBytes 8 1))))

/-- The row makes the filter TRUE, and its file is skipped. -/
theorem openSegment_skips_number :
    (∀ g ∈ digitsFile.rowGroups, g.Sound) ∧
      digitsFile.rows[1]? = some (idRow 100 (some digitsId)) ∧
      byNumber.IsTrue castNumbers (idRow 100 (some digitsId)) ∧
      openSegment intersectRows digitsFile none ([byNumber].filterMap (bloomProbe ["trace_id".toList]))
        ([byNumber].filterMap (statsRangeProbe [("start_time".toList, .timestamp .nanosecond none)])) =
          none := by
  refine ⟨digitsFile_sound, rfl, ?_, ?_⟩
  · have htext : castNumbers.cast (castNumbers.cast (idRow 100 (some digitsId) "trace_id".toList) (.binary none)) .utf8 =
        .utf8 (some "0000000000000001".toList) := congrArg ScalarValue.utf8 (decodeText_encodeText _)
    rw [Expr.IsTrue, byNumber]
    simp only [Expr.eval]
    rw [htext]
    decide
  · have hbloom : bloomRulesOut digitsFile ([byNumber].filterMap (bloomProbe ["trace_id".toList])) =
        true := by
      decide
    rw [openSegment, hbloom]
    rfl

end Imbh.Query
