import Imbh.Lib.OffsetPaging
import Imbh.Lgtm.LogSource

/-!
# Paging of logs

A page of logs ends with a cursor, the number of rows that are consumed, from which the next query goes on.
The table does not change, but each query is an execution of its own, which may order rows of one time as it
likes.

* `paging_by_offset` — what the pages have together.
-/

namespace Imbh.Logs

open Lib List
open Lgtm (Direction)

/-- Source: `logs.rs` `LogOrder` -/
inductive LogOrder
  | time
  | observedTime
  deriving DecidableEq

/-- A query, whose filters are of any kind. Source: `logs.rs` `LogQuery` -/
structure LogQuery (φ : Type) where
  filters : φ
  order : LogOrder
  limit : ℕ
  direction : Direction
  offset : ℕ

/-- The key of `ORDER BY`. Source: `logs.rs` `LogQuery::order_sql` -/
inductive OrderKey
  | time (direction : Direction)
  | observedTimeNullsLast (direction : Direction)
  deriving DecidableEq

/-- Source: `logs.rs` `LogQuery::to_sql`, of which the projection is left out -/
structure LogSql (φ : Type) where
  filters : φ
  orderBy : OrderKey
  limit : ℕ
  offset : ℕ

/-- Source: `logs.rs` `LogPage` -/
structure LogPage (ρ : Type) where
  entries : List ρ
  next : Option ℕ

section

variable {φ ρ : Type}

/-- Source: `logs.rs` `LogQuery::order_sql` -/
def LogQuery.orderSql (q : LogQuery φ) : OrderKey :=
  match q.order with
  | .time => .time q.direction
  | .observedTime => .observedTimeNullsLast q.direction

/-- Source: `logs.rs` `LogQuery::to_sql` -/
def LogQuery.toSql (q : LogQuery φ) : LogSql φ := ⟨q.filters, q.orderSql, q.limit, q.offset⟩

/-- Source: `logs.rs` `LogQuery::after` -/
def LogQuery.after (q : LogQuery φ) (cursor : ℕ) : LogQuery φ := { q with offset := cursor }

/-- The rows of the `logs` table, each one of its own, and which of them a filter selects. -/
structure LogTable (φ ρ : Type) where
  rows : List ρ
  nodup : rows.Nodup
  time : ρ → ℤ
  observedTime : ρ → Option ℤ
  selects : φ → ρ → Bool

def LogTable.matching (table : LogTable φ ρ) (filters : φ) : List ρ := table.rows.filter (table.selects filters)

/-- The place of a row in an order, in which a row without the time is last. -/
def OrderKey.rank (table : LogTable φ ρ) (row : ρ) : OrderKey → WithTop ℤ
  | .time .forward => table.time row
  | .time .backward => (-table.time row : ℤ)
  | .observedTimeNullsLast direction =>
      match table.observedTime row with
      | none => ⊤
      | some t => match direction with
        | .forward => t
        | .backward => (-t : ℤ)

/-- An execution of the statement, before `LIMIT` and `OFFSET`: all rows that match, in an order that is
consistent with `ORDER BY`. -/
def LogSql.Executes (table : LogTable φ ρ) (sql : LogSql φ) (run : List ρ) : Prop :=
  SortedRun (fun row => sql.orderBy.rank table row) (table.matching sql.filters) run

/-- The page that an execution gives. Source: `logs.rs` `LogsApi::query` -/
def query (q : LogQuery φ) (run : List ρ) : LogPage ρ :=
  let sql := q.toSql
  let entries := page run sql.offset sql.limit
  ⟨entries, if entries.length = q.limit then some (q.offset + entries.length) else none⟩

/-- The pages up to the one without a cursor, if it is among the first `fuel`. The `k`-th query is the
execution `runs k`. -/
def walk (runs : ℕ → List ρ) : ℕ → ℕ → LogQuery φ → Option (List (List ρ))
  | 0, _, _ => none
  | fuel + 1, k, q =>
      let answer := query q (runs k)
      match answer.next with
      | none => some [answer.entries]
      | some cursor => (walk runs fuel (k + 1) (q.after cursor)).map (answer.entries :: ·)

/-! ## The walk -/

variable {runs : ℕ → List ρ} {q : LogQuery φ} {n : ℕ}

theorem page_length (run : List ρ) (offset size : ℕ) : (page run offset size).length = min size (run.length - offset) := by
  unfold page
  rw [length_take, length_drop]

/-- The walk reads one page after the other, up to the first that is not full. -/
theorem walk_from (hlimit : 0 < q.limit) (hlength : ∀ k, (runs k).length = n) {left : ℕ} {k : ℕ}
    (hk : k + left = n / q.limit) (hoffset : q.offset = k * q.limit) {fuel : ℕ} (hfuel : left < fuel) :
    walk runs fuel k q = some ((List.range' k (left + 1)).map fun j => page (runs j) (j * q.limit) q.limit) := by
  induction left generalizing k q fuel with
  | zero =>
    match fuel with
    | fuel + 1 =>
      have hshort : (page (runs k) q.offset q.limit).length ≠ q.limit := by
        have hlast := Nat.lt_div_mul_add (a := n) hlimit
        rw [← hk, Nat.add_zero] at hlast
        rw [page_length, hlength, hoffset]
        omega
      have hnext : (query q (runs k)).next = none := if_neg hshort
      unfold walk
      dsimp only
      rw [hnext]
      show some [page (runs k) q.offset q.limit] = _
      rw [hoffset]
      rfl
  | succ left ih =>
    match fuel with
    | fuel + 1 =>
      have hfull : (page (runs k) q.offset q.limit).length = q.limit := by
        have hmul := Nat.mul_le_mul_right q.limit (show k + 1 ≤ n / q.limit by omega)
        have hdiv := Nat.div_mul_le_self n q.limit
        rw [Nat.succ_mul] at hmul
        rw [page_length, hlength, hoffset]
        omega
      have hnext : (query q (runs k)).next = some ((k + 1) * q.limit) := by
        refine (if_pos hfull).trans (congrArg some ?_)
        show q.offset + (page (runs k) q.offset q.limit).length = _
        rw [hfull, hoffset, Nat.succ_mul]
      have hleft : k + 1 + left = n / (q.after ((k + 1) * q.limit)).limit := by
        show k + 1 + left = n / q.limit
        omega
      have hnextLimit : 0 < (q.after ((k + 1) * q.limit)).limit := hlimit
      have hrest := ih hnextLimit hleft rfl (show left < fuel by omega)
      unfold walk
      dsimp only
      rw [hnext]
      dsimp only
      rw [hrest, List.range'_succ, map_cons, Option.map_some]
      show some (page (runs k) q.offset q.limit :: _) = _
      rw [hoffset]
      rfl

/-- The walk reads the pages of the executions. -/
theorem walk_eq_pages (hlimit : 0 < q.limit) (hlength : ∀ k, (runs k).length = n) (hoffset : q.offset = 0)
    {fuel : ℕ} (hfuel : n / q.limit < fuel) :
    walk runs fuel 0 q = some (pages runs q.limit (n / q.limit + 1)) := by
  rw [walk_from hlimit hlength (Nat.zero_add _) (by rw [hoffset, Nat.zero_mul]) hfuel, pages, range_eq_range']

/-- More fuel does not change a walk that ends. -/
theorem walk_mono (more : ℕ) {fuel k : ℕ} {out : List (List ρ)} (h : walk runs fuel k q = some out) :
    walk runs (fuel + more) k q = some out := by
  induction fuel generalizing k q out with
  | zero => exact absurd h (by simp [walk])
  | succ fuel ih =>
    rw [Nat.succ_add]
    unfold walk at h ⊢
    dsimp only at h ⊢
    rcases hnext : (query q (runs k)).next with _ | cursor
    · rw [hnext] at h
      exact h
    · rw [hnext] at h
      obtain ⟨rest, hrest, rfl⟩ := Option.map_eq_some_iff.mp h
      dsimp only
      rw [ih hrest]
      rfl

/-- A walk that ends does not depend on the fuel. -/
theorem walk_unique (hlimit : 0 < q.limit) (hlength : ∀ k, (runs k).length = n) (hoffset : q.offset = 0)
    {fuel : ℕ} {out : List (List ρ)} (h : walk runs fuel 0 q = some out) :
    out = pages runs q.limit (n / q.limit + 1) := by
  have hmore := walk_mono (n / q.limit + 1) h
  rw [walk_eq_pages hlimit hlength hoffset (by omega)] at hmore
  exact (Option.some.inj hmore).symm

/-- The walk of a query without a limit does not end. -/
theorem walk_limit_zero (hlimit : q.limit = 0) (fuel k : ℕ) : walk runs fuel k q = none := by
  induction fuel generalizing k q with
  | zero => rfl
  | succ fuel ih =>
    have hnext : (query q (runs k)).next = some q.offset := by
      have hempty : page (runs k) q.toSql.offset q.toSql.limit = [] := by
        show page (runs k) q.offset q.limit = []
        rw [page, hlimit, take_zero]
      unfold query
      dsimp only
      rw [hempty, hlimit]
      rfl
    unfold walk
    dsimp only
    rw [hnext]
    dsimp only
    rw [ih (q := q.after q.offset) hlimit]
    rfl

/-- The pages of a query with a limit, from the first on. The walk along the cursors ends, and the pages have
as many rows as match, in the order that is asked for. A row is in them once if no page ends among the rows
of its time; and where one does, an execution can give a row twice. -/
theorem paging_by_offset [DecidableEq ρ] (table : LogTable φ ρ) (q : LogQuery φ) (hlimit : 0 < q.limit)
    (hoffset : q.offset = 0) :
    let matching := table.matching q.filters
    let rank := fun row => q.orderSql.rank table row
    (∀ runs : ℕ → List ρ, (∀ k, q.toSql.Executes table (runs k)) →
      ∃ out, (∀ fuel, matching.length / q.limit < fuel → walk runs fuel 0 q = some out) ∧
        out.flatten.length = matching.length ∧ out.flatten.map rank = (runs 0).map rank ∧
        ∀ row ∈ matching, ¬Straddles ((runs 0).map rank) q.limit (rank row) → out.flatten.count row = 1) ∧
    ((∀ runs : ℕ → List ρ, (∀ k, q.toSql.Executes table (runs k)) →
        ∀ fuel out, walk runs fuel 0 q = some out → out.flatten.Perm matching) ↔
      ∀ run, q.toSql.Executes table run → ∀ row ∈ matching, ¬Straddles (run.map rank) q.limit (rank row)) := by
  intro matching rank
  have hnodup : matching.Nodup := table.nodup.filter _
  have hcount : matching.length ≤ (matching.length / q.limit + 1) * q.limit := by
    have hlt := Nat.lt_div_mul_add (a := matching.length) hlimit
    rw [Nat.succ_mul]
    exact hlt.le
  have hlength {runs : ℕ → List ρ} (hruns : ∀ k, q.toSql.Executes table (runs k)) (k : ℕ) :
      (runs k).length = matching.length := (hruns k).perm.length_eq
  have hranks {runs : ℕ → List ρ} (hruns : ∀ k, q.toSql.Executes table (runs k)) :
      (pages runs q.limit (matching.length / q.limit + 1)).flatten.map rank = (runs 0).map rank :=
    pages_ranks hruns hcount
  have hflat {runs : ℕ → List ρ} (hruns : ∀ k, q.toSql.Executes table (runs k)) :
      (pages runs q.limit (matching.length / q.limit + 1)).flatten.length = matching.length := by
    have hmap := congrArg List.length (hranks hruns)
    rwa [length_map, length_map, hlength hruns] at hmap
  constructor
  · intro runs hruns
    refine ⟨_, fun fuel hfuel => walk_eq_pages hlimit (hlength hruns) hoffset hfuel, hflat hruns, hranks hruns,
      fun row hrow hone => count_pages hruns hnodup hlimit hcount hrow hone⟩
  · constructor
    · intro hwalks run hrun row _ htie
      obtain ⟨runs, hruns, hrepeated⟩ := exists_repeated hrun hlimit hcount htie
      have hperm := hwalks runs hruns _ _ (walk_eq_pages hlimit (hlength hruns) hoffset (Nat.lt_succ_self _))
      exact hrepeated (hperm.nodup_iff.mpr hnodup)
    · intro hone runs hruns fuel out hout
      rw [walk_unique hlimit (hlength hruns) hoffset hout]
      have hsubset : matching ⊆ (pages runs q.limit (matching.length / q.limit + 1)).flatten := by
        intro row hrow
        have hcounts := count_pages hruns hnodup hlimit hcount hrow (hone (runs 0) (hruns 0) row hrow)
        exact count_pos_iff.mp (by omega)
      exact ((hnodup.subperm hsubset).perm_of_length_le (hflat hruns).le).symm

end

/-! ## Rows of one time -/

/-- Two rows of one time. -/
def twoRows : LogTable Unit ℕ where
  rows := [0, 1]
  nodup := by decide
  time _ := 5
  observedTime _ := none
  selects _ _ := true

/-- The oldest first, so many for a page. -/
def oldestFirst (limit : ℕ) : LogQuery Unit := ⟨(), .time, limit, .forward, 0⟩

theorem twoRows_executes (limit : ℕ) :
    (oldestFirst limit).toSql.Executes twoRows [0, 1] ∧ (oldestFirst limit).toSql.Executes twoRows [1, 0] :=
  ⟨⟨Perm.refl _, pairwise_pair.mpr le_rfl⟩, ⟨Perm.swap _ _ _, pairwise_pair.mpr le_rfl⟩⟩

/-- With one row for a page, the second execution may have the rows in the other order: the first row comes
twice and the other never. -/
theorem row_twice :
    (∀ k, (oldestFirst 1).toSql.Executes twoRows (if k = 0 then [0, 1] else [1, 0])) ∧
      walk (fun k => if k = 0 then [0, 1] else [1, 0]) 3 0 (oldestFirst 1) = some [[0], [0], []] ∧
      twoRows.matching () = [0, 1] := by
  refine ⟨fun k => ?_, by decide, by decide⟩
  split
  · exact (twoRows_executes 1).1
  · exact (twoRows_executes 1).2

/-- With two rows for a page both come once. -/
theorem two_pages_once :
    ∃ out, walk (fun _ => [1, 0]) 2 0 (oldestFirst 2) = some out ∧ out.flatten.length = 2 ∧
      out.flatten.count 0 = 1 := by
  obtain ⟨out, hwalk, hlength, -, hcount⟩ :=
    (paging_by_offset twoRows (oldestFirst 2) (by decide) rfl).1 (fun _ => [1, 0])
      fun _ => (twoRows_executes 2).2
  refine ⟨out, hwalk 2 (by decide), hlength, hcount 0 (by decide) ?_⟩
  rintro ⟨k, hk, hbefore, hat⟩
  have hlt := (List.getElem?_eq_some_iff.mp hat).1
  have hlen : k * 2 < 2 := hlt
  omega

end Imbh.Logs
