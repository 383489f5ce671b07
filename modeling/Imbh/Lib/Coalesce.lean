import Mathlib.Data.List.ReduceOption
import Mathlib.Data.List.Infix

/-!
# Equal neighbours in one call

A loop over a column, some rows of which are empty. Equal neighbours are handed over in one call, with their number;
an empty row ends a run of them.
-/

namespace Imbh.Lib

open List

variable {α β σ : Type*}

/-- The rows of some calls, one by one. -/
def expand (calls : List (α × ℕ)) : List α := calls.flatMap fun c => List.replicate c.2 c.1

@[simp] theorem expand_nil : expand ([] : List (α × ℕ)) = [] := rfl

@[simp] theorem expand_cons (c : α × ℕ) (calls : List (α × ℕ)) :
    expand (c :: calls) = List.replicate c.2 c.1 ++ expand calls := by
  simp [expand]

@[simp] theorem expand_append (calls calls' : List (α × ℕ)) : expand (calls ++ calls') = expand calls ++ expand calls' := by
  simp [expand]

/-- The calls are those of the rows that are not empty, in order, and what is handed over together was together. -/
structure Reads (calls : List (α × ℕ)) (rows : List (Option α)) : Prop where
  expand_eq : expand calls = rows.reduceOption
  pos : ∀ c ∈ calls, 0 < c.2
  neighbours : ∀ c ∈ calls, 2 ≤ c.2 → [some c.1, some c.1] <:+: rows

namespace Reads

variable {calls calls' : List (α × ℕ)} {rows rows' : List (Option α)}

theorem nil : Reads ([] : List (α × ℕ)) [] := ⟨rfl, by simp, by simp⟩

theorem append (h : Reads calls rows) (h' : Reads calls' rows') : Reads (calls ++ calls') (rows ++ rows') where
  expand_eq := by rw [expand_append, h.expand_eq, h'.expand_eq, reduceOption_append]
  pos c hc := (mem_append.mp hc).elim (h.pos c) (h'.pos c)
  neighbours c hc hn := (mem_append.mp hc).elim
    (fun hc => (h.neighbours c hc hn).trans (prefix_append _ _).isInfix)
    (fun hc => (h'.neighbours c hc hn).trans (suffix_append _ _).isInfix)

/-- An empty row has no call. -/
theorem concat_none (h : Reads calls rows) : Reads calls (rows ++ [none]) where
  expand_eq := by rw [h.expand_eq, reduceOption_append, reduceOption_singleton]; simp
  pos := h.pos
  neighbours c hc hn := (h.neighbours c hc hn).trans (prefix_append _ _).isInfix

/-- Some of the rows are empty when they are decoded. -/
theorem filterMap (f : α → Option β) (h : Reads calls rows) :
    Reads (calls.filterMap fun c => (f c.1).map (·, c.2)) (rows.map fun row => row.bind f) where
  expand_eq := by
    have hexpand (calls : List (α × ℕ)) :
        expand (calls.filterMap fun c => (f c.1).map (·, c.2)) = (expand calls).filterMap f := by
      induction calls with
      | nil => rfl
      | cons c calls ih =>
        rw [filterMap_cons, expand_cons, filterMap_append, ← ih]
        rcases hf : f c.1 with _ | b
        · simp [hf]
        · simp [hf]
    rw [hexpand, h.expand_eq]
    clear h
    induction rows with
    | nil => rfl
    | cons row rows ih =>
      cases row with
      | none => simpa using ih
      | some a =>
        rcases hf : f a with _ | b
        · simpa [hf] using ih
        · simpa [hf] using ih
  pos c hc := by
    obtain ⟨c', hc', heq⟩ := mem_filterMap.mp hc
    obtain ⟨b, -, rfl⟩ := Option.map_eq_some_iff.mp heq
    exact h.pos c' hc'
  neighbours c hc hn := by
    obtain ⟨c', hc', heq⟩ := mem_filterMap.mp hc
    obtain ⟨b, hb, rfl⟩ := Option.map_eq_some_iff.mp heq
    have hin := (h.neighbours c' hc' hn).map fun row => row.bind f
    simpa [hb] using hin

end Reads

/-- The run that is going on is the last rows. -/
def Going (start : Option α) (run : ℕ) (tail : List (Option α)) : Prop :=
  match start with
  | none => tail = []
  | some p => 0 < run ∧ tail = List.replicate run (some p)

/-- A run reads as its length says. -/
theorem reads_run {p : α} {run : ℕ} (h : 0 < run) : Reads [(p, run)] (List.replicate run (some p)) where
  expand_eq := by
    have hreduce (n : ℕ) : (List.replicate n (some p)).reduceOption = List.replicate n p := by
      induction n with
      | zero => rfl
      | succ n ih => rw [replicate_succ, reduceOption_cons_of_some, ih, replicate_succ]
    rw [expand_cons, expand_nil, append_nil, hreduce]
  pos c hc := by
    obtain rfl := mem_singleton.mp hc
    exact h
  neighbours c hc hn := by
    obtain rfl := mem_singleton.mp hc
    obtain ⟨n, rfl⟩ : ∃ n, run = 2 + n := Nat.exists_eq_add_of_le hn
    refine ⟨[], List.replicate n (some p), ?_⟩
    rw [replicate_add]
    rfl

section

variable [DecidableEq α]

/-- The loop, with the run that is going on. -/
def coalesceFrom (flush : σ → α → ℕ → σ) : σ → Option α → ℕ → List (Option α) → σ
  | s, none, _, [] => s
  | s, some p, run, [] => flush s p run
  | s, none, _, none :: rows => coalesceFrom flush s none 0 rows
  | s, some p, run, none :: rows => coalesceFrom flush (flush s p run) none 0 rows
  | s, none, _, some a :: rows => coalesceFrom flush s (some a) 1 rows
  | s, some p, run, some a :: rows =>
      if p = a then coalesceFrom flush s (some p) (run + 1) rows else coalesceFrom flush (flush s p run) (some a) 1 rows

def coalesce (flush : σ → α → ℕ → σ) (s : σ) (rows : List (Option α)) : σ := coalesceFrom flush s none 0 rows

/-- The calls of the loop. -/
def coalesced (rows : List (Option α)) : List (α × ℕ) := coalesce (fun calls a n => calls ++ [(a, n)]) [] rows

/-- What was flushed before does not matter to what is flushed next. -/
theorem coalesceFrom_eq (flush : σ → α → ℕ → σ) (s : σ) (calls : List (α × ℕ)) (start : Option α) (run : ℕ)
    (rows : List (Option α)) :
    coalesceFrom flush (calls.foldl (fun s c => flush s c.1 c.2) s) start run rows =
      (coalesceFrom (fun calls a n => calls ++ [(a, n)]) calls start run rows).foldl (fun s c => flush s c.1 c.2) s := by
  have hflush (calls : List (α × ℕ)) (p : α) (n : ℕ) : flush (calls.foldl (fun s c => flush s c.1 c.2) s) p n =
      (calls ++ [(p, n)]).foldl (fun s c => flush s c.1 c.2) s := by
    rw [foldl_append, foldl_cons, foldl_nil]
  induction rows generalizing calls start run with
  | nil => cases start <;> simp [coalesceFrom]
  | cons row rows ih =>
    cases start with
    | none => cases row <;> simp only [coalesceFrom, ih]
    | some p =>
      cases row with
      | none => simp only [coalesceFrom, hflush, ih]
      | some a =>
        rw [coalesceFrom, coalesceFrom]
        split
        · exact ih calls (some p) (run + 1)
        · rw [hflush, ih]

/-- The loop is a fold over its calls. -/
theorem coalesce_eq (flush : σ → α → ℕ → σ) (s : σ) (rows : List (Option α)) :
    coalesce flush s rows = (coalesced rows).foldl (fun s c => flush s c.1 c.2) s := coalesceFrom_eq flush s [] none 0 rows

/-- The calls read as all rows, with the run that is going. -/
theorem coalesceFrom_reads {calls : List (α × ℕ)} {done : List (Option α)} (h : Reads calls done) {start : Option α} {run : ℕ}
    {tail : List (Option α)} (hgoing : Going start run tail) (rows : List (Option α)) :
    Reads (coalesceFrom (fun calls a n => calls ++ [(a, n)]) calls start run rows) (done ++ tail ++ rows) := by
  induction rows generalizing calls done start run tail with
  | nil =>
    rw [append_nil]
    cases start with
    | none =>
      obtain rfl : tail = [] := hgoing
      rwa [append_nil]
    | some p =>
      obtain ⟨hpos, rfl⟩ := hgoing
      exact h.append (reads_run hpos)
  | cons row rows ih =>
    cases start with
    | none =>
      obtain rfl : tail = [] := hgoing
      cases row with
      | none => simpa [coalesceFrom] using ih h.concat_none (show Going none 0 [] from rfl)
      | some a => simpa [coalesceFrom] using ih h (show Going (some a) 1 [some a] from ⟨Nat.one_pos, rfl⟩)
    | some p =>
      obtain ⟨hpos, rfl⟩ := hgoing
      have hflushed := h.append (reads_run (p := p) hpos)
      cases row with
      | none => simpa [coalesceFrom] using ih hflushed.concat_none (show Going none 0 [] from rfl)
      | some a =>
        rw [coalesceFrom]
        split
        · rename_i heq
          subst heq
          have hlonger := ih h (show Going (some p) (run + 1) _ from ⟨Nat.succ_pos run, rfl⟩)
          rw [replicate_succ'] at hlonger
          simpa using hlonger
        · simpa using ih hflushed (show Going (some a) 1 [some a] from ⟨Nat.one_pos, rfl⟩)

/-- The calls are those of the rows, and only neighbours are in one call. -/
theorem coalesced_reads (rows : List (Option α)) : Reads (coalesced rows) rows :=
  coalesceFrom_reads .nil (show Going none 0 [] from rfl) rows

end

end Imbh.Lib
