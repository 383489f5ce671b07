import Mathlib.Data.List.Nodup
import Mathlib.Tactic.Linarith

/-!
# The history of a queue

What has left a queue is kept as a list of entries with their fates, in the order in which they
left. `leftAs f` picks the entries with one fate.
-/

namespace Imbh.Lib

variable {α φ : Type*} [DecidableEq φ]

/-- The entries that left with the fate `f`. -/
def leftAs (f : φ) (gone : List (α × φ)) : List α := (gone.filter (·.2 = f)).map Prod.fst

@[simp] theorem leftAs_nil (f : φ) : leftAs f ([] : List (α × φ)) = [] := rfl

theorem leftAs_append (f : φ) (gone more : List (α × φ)) :
    leftAs f (gone ++ more) = leftAs f gone ++ leftAs f more := by
  unfold leftAs
  rw [List.filter_append, List.map_append]

@[simp] theorem leftAs_concat_self (f : φ) (gone : List (α × φ)) (x : α) :
    leftAs f (gone ++ [(x, f)]) = leftAs f gone ++ [x] := by
  rw [leftAs_append]
  simp [leftAs]

@[simp] theorem leftAs_concat_ne {f g : φ} (h : g ≠ f) (gone : List (α × φ)) (x : α) :
    leftAs f (gone ++ [(x, g)]) = leftAs f gone := by
  rw [leftAs_append]
  simp [leftAs, h]

theorem mem_leftAs {f : φ} {gone : List (α × φ)} {x : α} :
    x ∈ leftAs f gone ↔ (x, f) ∈ gone := by
  simp [leftAs]

/-- What left with one fate, left in the order in which all left. -/
theorem leftAs_sublist (f : φ) (gone : List (α × φ)) :
    (leftAs f gone).Sublist (gone.map Prod.fst) := by
  unfold leftAs
  apply List.Sublist.map
  exact List.filter_sublist

/-- Who left and who waits, of those who entered. -/
structure Accounted (entered : List α) (gone : List (α × φ)) (waiting : List α) : Prop where
  order : entered = gone.map Prod.fst ++ waiting

namespace Accounted

variable {entered waiting : List α} {gone : List (α × φ)}

omit [DecidableEq φ] in
theorem nil : Accounted ([] : List α) ([] : List (α × φ)) [] := ⟨rfl⟩

omit [DecidableEq φ] in
/-- One enters at the end. -/
theorem enter (h : Accounted entered gone waiting) (x : α) :
    Accounted (entered ++ [x]) gone (waiting ++ [x]) := by
  constructor
  rw [h.order, List.append_assoc]

omit [DecidableEq φ] in
/-- The first one leaves. -/
theorem leave {x : α} (h : Accounted entered gone (x :: waiting)) (f : φ) :
    Accounted entered (gone ++ [(x, f)]) waiting := by
  constructor
  rw [h.order, List.map_append, List.append_assoc]
  rfl

/-- What left with one fate, left in the order in which it had entered. -/
theorem sublist_entered (h : Accounted entered gone waiting) (f : φ) :
    (leftAs f gone).Sublist entered := by
  rw [h.order]
  exact (leftAs_sublist f gone).trans (List.sublist_append_left _ _)

/-- Whoever entered once left with one fate only. -/
theorem leftAs_disjoint (h : Accounted entered gone waiting) (hnodup : entered.Nodup) {f g : φ}
    (hne : f ≠ g) : (leftAs f gone).Disjoint (leftAs g gone) := by
  rw [h.order] at hnodup
  have hgone : (gone.map Prod.fst).Nodup := hnodup.of_append_left
  intro x hf hg
  have heq := List.inj_on_of_nodup_map hgone (mem_leftAs.mp hf) (mem_leftAs.mp hg) rfl
  exact hne (congrArg Prod.snd heq)

end Accounted

end Imbh.Lib
