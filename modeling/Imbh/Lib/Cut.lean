import Mathlib.Data.List.Basic
import Mathlib.Data.List.Induction

/-!
# Cutting a list into pieces

The elements of a list are put into a piece until the piece stops. The last piece may be open.
-/

namespace Imbh.Lib

open List

variable {α : Type*} (stops : List α → Bool)

/-- The pieces that have stopped, and the one that is open. -/
def cutStep (s : List (List α) × List α) (a : α) : List (List α) × List α :=
  if stops (s.2 ++ [a]) then (s.1 ++ [s.2 ++ [a]], []) else (s.1, s.2 ++ [a])

def cut (l : List α) : List (List α) × List α := l.foldl (cutStep stops) ([], [])

/-- The pieces, with the open one at the end if it has something. -/
def pieces (l : List α) : List (List α) := (cut stops l).1 ++ if (cut stops l).2 = [] then [] else [(cut stops l).2]

/-- A piece that does not stop before its end. -/
def Unstopped (p : List α) : Prop := ∀ q r, p = q ++ r → q ≠ [] → r ≠ [] → stops q = false

/-- The pieces are not empty, none stops before its end, and all but the last one stop at their end. -/
structure IsCut (ps : List (List α)) : Prop where
  ne_nil : ∀ p ∈ ps, p ≠ []
  unstopped : ∀ p ∈ ps, Unstopped stops p
  closed : ∀ p ∈ ps.dropLast, stops p = true

variable {stops}

theorem cut_concat (l : List α) (a : α) : cut stops (l ++ [a]) = cutStep stops (cut stops l) a := by
  rw [cut, foldl_append]
  rfl

theorem Unstopped.nil : Unstopped stops ([] : List α) := by
  intro q r heq hq
  exact absurd (append_eq_nil_iff.mp heq.symm).1 hq

/-- A piece that has not stopped takes one more. -/
theorem Unstopped.concat {p : List α} (h : Unstopped stops p) (hp : p ≠ [] → stops p = false) (a : α) :
    Unstopped stops (p ++ [a]) := by
  intro q r heq hq hr
  obtain ⟨r', b, rfl⟩ := eq_nil_or_concat r |>.resolve_left hr
  rw [concat_eq_append, ← append_assoc] at heq
  obtain ⟨rfl, -⟩ := append_inj' heq rfl
  rcases r' with _ | ⟨c, r'⟩
  · rw [append_nil] at hp
    exact hp hq
  · exact h q (c :: r') rfl hq (cons_ne_nil c r')

/-- What the pieces are while the list is read. -/
structure Cutting (stops : List α → Bool) (l : List α) (s : List (List α) × List α) : Prop where
  flatten : s.1.flatten ++ s.2 = l
  ne_nil : ∀ p ∈ s.1, p ≠ []
  unstopped : ∀ p ∈ s.1, Unstopped stops p
  closed : ∀ p ∈ s.1, stops p = true
  unstopped_open : Unstopped stops s.2
  not_stops_open : s.2 ≠ [] → stops s.2 = false

/-- A step keeps the pieces those of what was read. -/
theorem Cutting.step {l : List α} {s : List (List α) × List α} (h : Cutting stops l s) (a : α) :
    Cutting stops (l ++ [a]) (cutStep stops s a) := by
  have hunstopped := h.unstopped_open.concat h.not_stops_open a
  unfold cutStep
  split
  · rename_i hstop
    refine ⟨?_, ?_, ?_, ?_, Unstopped.nil, fun hne => absurd rfl hne⟩
    · rw [← h.flatten]
      simp
    · exact forall_mem_append.mpr ⟨h.ne_nil, by simp⟩
    · exact forall_mem_append.mpr ⟨h.unstopped, by simpa using hunstopped⟩
    · exact forall_mem_append.mpr ⟨h.closed, by simpa using hstop⟩
  · rename_i hstop
    refine ⟨?_, h.ne_nil, h.unstopped, h.closed, hunstopped, fun _ => eq_false_of_ne_true hstop⟩
    rw [← h.flatten]
    simp

variable (stops) in
theorem cutting (l : List α) : Cutting stops l (cut stops l) := by
  induction l using List.reverseRecOn with
  | nil => exact ⟨rfl, by simp [cut], by simp [cut], by simp [cut], Unstopped.nil, fun hne => absurd rfl hne⟩
  | append_singleton l a ih =>
    rw [cut_concat]
    exact ih.step a

theorem flatten_pieces (l : List α) : (pieces stops l).flatten = l := by
  have h := (cutting stops l).flatten
  unfold pieces
  split
  · rename_i hopen
    rw [hopen, append_nil] at h
    rwa [append_nil]
  · simpa using h

/-- The pieces are a cut. -/
theorem pieces_isCut (l : List α) : IsCut stops (pieces stops l) := by
  have h := cutting stops l
  unfold pieces
  split
  · rw [append_nil]
    exact ⟨h.ne_nil, h.unstopped, fun p hp => h.closed p (dropLast_subset _ hp)⟩
  · rename_i hopen
    refine ⟨forall_mem_append.mpr ⟨h.ne_nil, by simpa using hopen⟩,
      forall_mem_append.mpr ⟨h.unstopped, by simpa using h.unstopped_open⟩, ?_⟩
    rw [dropLast_concat]
    exact h.closed

/-- A piece that does not stop before its end is read as a whole. -/
theorem foldl_cutStep (done : List (List α)) {acc p : List α} (hp : p ≠ []) (h : Unstopped stops (acc ++ p)) :
    p.foldl (cutStep stops) (done, acc) =
      if stops (acc ++ p) then (done ++ [acc ++ p], []) else (done, acc ++ p) := by
  induction p generalizing acc with
  | nil => exact absurd rfl hp
  | cons a p ih =>
    rw [append_cons] at h ⊢
    rw [foldl_cons]
    rcases p with _ | ⟨b, p⟩
    · rw [append_nil]
      rfl
    · have hstep : cutStep stops (done, acc) a = (done, acc ++ [a]) := by
        have hfalse := h (acc ++ [a]) (b :: p) rfl (by simp) (cons_ne_nil b p)
        simp [cutStep, hfalse]
      rw [hstep]
      exact ih (cons_ne_nil b p) h

/-- Stopped pieces are cut where they end. -/
theorem foldl_cutStep_flatten (done : List (List α)) {ps : List (List α)} (hne : ∀ p ∈ ps, p ≠ [])
    (hunstopped : ∀ p ∈ ps, Unstopped stops p) (hclosed : ∀ p ∈ ps, stops p = true) :
    ps.flatten.foldl (cutStep stops) (done, []) = (done ++ ps, []) := by
  induction ps generalizing done with
  | nil => simp
  | cons p ps ih =>
    obtain ⟨hp, hne⟩ := forall_mem_cons.mp hne
    obtain ⟨hpunstopped, hunstopped⟩ := forall_mem_cons.mp hunstopped
    obtain ⟨hpclosed, hclosed⟩ := forall_mem_cons.mp hclosed
    rw [flatten_cons, foldl_append, @foldl_cutStep _ _ done [] p hp hpunstopped, nil_append,
      if_pos hpclosed, ih (done ++ [p]) hne hunstopped hclosed, append_assoc]
    rfl

/-- The pieces of a list are the only ones. -/
theorem IsCut.pieces_eq {ps : List (List α)} (h : IsCut stops ps) : pieces stops ps.flatten = ps := by
  rcases eq_nil_or_concat ps with rfl | ⟨front, last, rfl⟩
  · rfl
  rw [concat_eq_append] at h ⊢
  have hclosed := h.closed
  rw [dropLast_concat] at hclosed
  have hfront := @foldl_cutStep_flatten _ stops [] _ (fun p hp => h.ne_nil p (mem_append_left _ hp))
    (fun p hp => h.unstopped p (mem_append_left _ hp)) hclosed
  have hlast : last ∈ front ++ [last] := mem_append_right front mem_cons_self
  have hcut : cut stops (front ++ [last]).flatten =
      if stops last then (front ++ [last], []) else (front, last) := by
    rw [cut, flatten_append, foldl_append, hfront, flatten_singleton, nil_append,
      @foldl_cutStep _ _ front [] last (h.ne_nil last hlast) (h.unstopped last hlast)]
    rfl
  unfold pieces
  rw [hcut]
  split
  · exact append_nil _
  · rw [if_neg (h.ne_nil last hlast)]

/-- A list is one piece exactly if it does not stop before its end. -/
theorem pieces_eq_singleton {l : List α} (hl : l ≠ []) : pieces stops l = [l] ↔ Unstopped stops l := by
  constructor
  · intro heq
    exact (pieces_isCut l).unstopped l (heq ▸ mem_cons_self)
  · intro h
    have hcut : IsCut stops [l] := ⟨by simpa using hl, by simpa using h, by simp⟩
    simpa using hcut.pieces_eq

end Imbh.Lib
