import Mathlib.Data.Finset.Card
import Imbh.Lib.Runs

/-!
# A window of remembered keys

Keys are remembered in two generations. A new key goes to the current one; when that is full, it
becomes the previous one and the old previous one is forgotten whole.

Two windows are run side by side over the same keys, a warm one, which has seen keys before, and a
cold one. The cold one is *permissive* when it remembers no key that the warm one does not, so that
whatever the warm one accepts it accepts too.
-/

namespace Imbh.Lib

/-- Two generations of remembered keys, the current one of at most `cap`. -/
structure Window (K : Type*) where
  current : Finset K
  previous : Finset K
  cap : ℕ

namespace Window

variable {K : Type*} [DecidableEq K]

/-- A window that remembers nothing. -/
def empty (cap : ℕ) : Window K := ⟨∅, ∅, cap⟩

/-- `true` when the key is new (and it is then remembered). -/
def admits (w : Window K) (k : K) : Window K × Bool :=
  if k ∈ w.current ∨ k ∈ w.previous then (w, false)
  else
    let w := if w.cap ≤ w.current.card then { w with current := ∅, previous := w.current } else w
    ({ w with current := insert k w.current }, true)

/-- The keys of both generations. -/
def remembered (w : Window K) : Finset K := w.current ∪ w.previous

/-- The keys that are forgotten for a key. -/
def forgets (w : Window K) (k : K) : Finset K :=
  if k ∉ w.remembered ∧ w.cap ≤ w.current.card then w.previous \ w.current else ∅

/-- The window after a list of keys. -/
def after (w : Window K) (ks : List K) : Window K := ks.foldl (fun w k => (w.admits k).1) w

/-- Which keys of a list are new. -/
def verdicts : Window K → List K → List Bool
  | _, [] => []
  | w, k :: ks => (w.admits k).2 :: verdicts (w.admits k).1 ks

@[simp] theorem remembered_empty (cap : ℕ) : (empty cap : Window K).remembered = ∅ := rfl

theorem mem_remembered {w : Window K} {k : K} :
    k ∈ w.remembered ↔ k ∈ w.current ∨ k ∈ w.previous := Finset.mem_union

/-- A key is new when it is not remembered. -/
theorem admits_snd (w : Window K) (k : K) : (w.admits k).2 = true ↔ k ∉ w.remembered := by
  unfold admits
  rw [mem_remembered]
  split
  · rename_i h
    simp [h]
  · rename_i h
    simp [h]

theorem admits_of_mem {w : Window K} {k : K} (h : k ∈ w.remembered) : w.admits k = (w, false) := by
  unfold admits
  rw [if_pos (mem_remembered.mp h)]

theorem not_mem_forgets (w : Window K) (k : K) : k ∉ w.forgets k := by
  unfold forgets
  split
  · rename_i h
    exact fun hk => h.1 (mem_remembered.mpr (.inr (Finset.mem_sdiff.mp hk).1))
  · exact Finset.notMem_empty k

/-- **What is remembered after a key.** -/
theorem remembered_admits (w : Window K) (k : K) :
    (w.admits k).1.remembered = insert k (w.remembered \ w.forgets k) := by
  by_cases hk : k ∈ w.remembered
  · have hnone : w.forgets k = ∅ := if_neg fun h => h.1 hk
    rw [admits_of_mem hk, hnone, Finset.sdiff_empty, Finset.insert_eq_of_mem hk]
  · have hnew : ¬ (k ∈ w.current ∨ k ∈ w.previous) := fun h => hk (mem_remembered.mpr h)
    by_cases hcap : w.cap ≤ w.current.card
    · have hforgets : w.forgets k = w.previous \ w.current := if_pos ⟨hk, hcap⟩
      have hrest : w.remembered \ (w.previous \ w.current) = w.current := by
        ext x
        rw [Finset.mem_sdiff, Finset.mem_sdiff, mem_remembered]
        tauto
      rw [hforgets, hrest]
      simp only [admits, if_neg hnew, if_pos hcap, remembered]
      ext x
      simp
    · have hforgets : w.forgets k = ∅ := if_neg fun h => hcap h.2
      rw [hforgets, Finset.sdiff_empty]
      simp only [admits, if_neg hnew, if_neg hcap, remembered]
      rw [Finset.insert_union]

/-! ## Lists of keys -/

@[simp] theorem after_nil (w : Window K) : w.after [] = w := rfl

@[simp] theorem after_cons (w : Window K) (k : K) (ks : List K) :
    w.after (k :: ks) = (w.admits k).1.after ks := rfl

theorem after_append (w : Window K) (ks ls : List K) :
    w.after (ks ++ ls) = (w.after ks).after ls := List.foldl_append

theorem verdicts_append (w : Window K) (ks ls : List K) :
    w.verdicts (ks ++ ls) = w.verdicts ks ++ (w.after ks).verdicts ls := by
  induction ks generalizing w with
  | nil => rfl
  | cons k ks ih =>
      rw [List.cons_append, verdicts, verdicts, after_cons, ih, List.cons_append]

@[simp] theorem verdicts_length (w : Window K) (ks : List K) :
    (w.verdicts ks).length = ks.length := by
  induction ks generalizing w with
  | nil => rfl
  | cons k ks ih => rw [verdicts, List.length_cons, List.length_cons, ih]

/-- The verdict on a key, from the keys before it. -/
theorem verdicts_getElem? (w : Window K) (ks : List K) (i : ℕ) :
    (w.verdicts ks)[i]? = ks[i]?.map fun k => ((w.after (ks.take i)).admits k).2 := by
  induction ks generalizing w i with
  | nil => rfl
  | cons k ks ih =>
      rcases i with _ | i
      · rfl
      · rw [verdicts, List.getElem?_cons_succ, List.getElem?_cons_succ, List.take_succ_cons,
          after_cons]
        exact ih _ i

/-- A key is remembered after a list when it was before, or is accepted. -/
theorem mem_remembered_after {w : Window K} {ks : List K} {k : K}
    (h : k ∈ (w.after ks).remembered) :
    k ∈ w.remembered ∨ ∃ i : ℕ, ks[i]? = some k ∧ (w.verdicts ks)[i]? = some true := by
  induction ks generalizing w with
  | nil => exact .inl h
  | cons x ks ih =>
      rcases ih h with hmem | ⟨i, hi, hv⟩
      · rw [remembered_admits] at hmem
        rcases Finset.mem_insert.mp hmem with rfl | hold
        · by_cases hk : k ∈ w.remembered
          · exact .inl hk
          · exact .inr ⟨0, rfl, congrArg some ((admits_snd w k).mpr hk)⟩
        · exact .inl (Finset.mem_sdiff.mp hold).1
      · exact .inr ⟨i + 1, hi, hv⟩

/-- A refused key was remembered before the list, or stands in the list before. -/
theorem mem_of_refused {w : Window K} {ks : List K} {i : ℕ} {k : K} (hk : ks[i]? = some k)
    (hv : (w.verdicts ks)[i]? = some false) : k ∈ w.remembered ∨ k ∈ ks.take i := by
  rw [verdicts_getElem?, hk] at hv
  have hmem : k ∈ (w.after (ks.take i)).remembered := by
    by_contra hnot
    rw [Option.map_some, (admits_snd _ k).mpr hnot] at hv
    cases hv
  rcases mem_remembered_after hmem with hmem | ⟨j, hj, -⟩
  · exact .inl hmem
  · exact .inr (List.mem_of_getElem? hj)

/-! ## The last admitted keys -/

/-- The keys of a list that are new, in their order. -/
def admitted : Window K → List K → List K
  | _, [] => []
  | w, k :: ks => (if (w.admits k).2 then [k] else []) ++ admitted (w.admits k).1 ks

/-- The generations are the last keys of a history of admitted keys; if the history is longer, the previous generation
is full. -/
structure Remembers (w : Window K) (history : List K) : Prop where
  split : ∃ older previous current, history = older ++ (previous ++ current) ∧ previous.toFinset = w.previous ∧
    current.toFinset = w.current ∧ current.Nodup ∧ previous.length ≤ w.cap ∧ current.length ≤ w.cap ∧
    (previous.length = w.cap ∨ older = [] ∧ previous = [])

theorem remembers_empty (cap : ℕ) : (empty cap : Window K).Remembers [] :=
  ⟨[], [], [], rfl, rfl, rfl, List.nodup_nil, Nat.zero_le _, Nat.zero_le _, .inr ⟨rfl, rfl⟩⟩

@[simp] theorem cap_admits (w : Window K) (k : K) : (w.admits k).1.cap = w.cap := by
  unfold admits
  split
  · rfl
  · split <;> rfl

@[simp] theorem cap_after (w : Window K) (ks : List K) : (w.after ks).cap = w.cap := by
  induction ks generalizing w with
  | nil => rfl
  | cons k ks ih => rw [after_cons, ih, cap_admits]

section

variable {w : Window K} {history : List K}

/-- One key. -/
theorem Remembers.admits (h : w.Remembers history) (hcap : 0 < w.cap) (k : K) :
    (w.admits k).1.Remembers (history ++ if (w.admits k).2 then [k] else []) := by
  by_cases hk : k ∈ w.remembered
  · rw [admits_of_mem hk]
    simpa using h
  obtain ⟨older, previous, current, rfl, hprevious, hcurrent, hnodup, hlenp, hlenc, hfull⟩ := h.split
  have hnew : ¬(k ∈ w.current ∨ k ∈ w.previous) := fun h => hk (mem_remembered.mpr h)
  have hcard : w.current.card = current.length := by
    rw [← hcurrent, List.toFinset_card_of_nodup hnodup]
  rw [(admits_snd w k).mpr hk, if_pos rfl]
  by_cases hrotate : w.cap ≤ w.current.card
  · -- the current generation becomes the previous one
    have hlen : current.length = w.cap := le_antisymm hlenc (hcard ▸ hrotate)
    refine ⟨older ++ previous, current, [k], ?_, ?_, ?_, List.nodup_singleton k, ?_, ?_, .inl ?_⟩
    · simp
    · simp [Window.admits, hnew, hrotate, hcurrent]
    · simp [Window.admits, hnew, hrotate]
    · rw [cap_admits, hlen]
    · rw [cap_admits]
      exact hcap
    · rw [cap_admits, hlen]
  · have hkc : k ∉ current := by
      rw [← List.mem_toFinset, hcurrent]
      exact fun h => hnew (.inl h)
    refine ⟨older, previous, current ++ [k], ?_, ?_, ?_, ?_, ?_, ?_, ?_⟩
    · simp
    · simp [Window.admits, hnew, hrotate, hprevious]
    · rw [List.toFinset_append, hcurrent, Finset.union_comm]
      simp [Window.admits, hnew, hrotate]
    · exact List.nodup_append_comm.mp (List.nodup_cons.mpr ⟨hkc, hnodup⟩)
    · rwa [cap_admits]
    · rw [cap_admits, List.length_append, List.length_singleton]
      omega
    · rwa [cap_admits]

/-- A run of keys. -/
theorem Remembers.after (h : w.Remembers history) (hcap : 0 < w.cap) (ks : List K) :
    (w.after ks).Remembers (history ++ w.admitted ks) := by
  induction ks generalizing w history with
  | nil => simpa [admitted] using h
  | cons k ks ih =>
    rw [after_cons, admitted, ← List.append_assoc]
    exact ih (h.admits hcap k) (by rwa [cap_admits])

/-- Neither generation has more than `cap` keys. -/
theorem Remembers.card_le (h : w.Remembers history) : w.current.card ≤ w.cap ∧ w.previous.card ≤ w.cap := by
  obtain ⟨older, previous, current, -, hprevious, hcurrent, -, hlenp, hlenc, -⟩ := h.split
  rw [← hprevious, ← hcurrent]
  exact ⟨(List.toFinset_card_le _).trans hlenc, (List.toFinset_card_le _).trans hlenp⟩

/-- A remembered key is among the last `2 * cap` admitted ones. -/
theorem Remembers.mem_drop (h : w.Remembers history) {k : K} (hk : k ∈ w.remembered) :
    k ∈ history.drop (history.length - 2 * w.cap) := by
  obtain ⟨older, previous, current, rfl, hprevious, hcurrent, -, hlenp, hlenc, -⟩ := h.split
  have hmem : k ∈ previous ++ current := by
    rw [mem_remembered, ← hprevious, ← hcurrent, List.mem_toFinset, List.mem_toFinset] at hk
    exact List.mem_append.mpr hk.symm
  have hlen : (older ++ (previous ++ current)).length - 2 * w.cap ≤ older.length := by
    simp only [List.length_append]
    omega
  rw [List.drop_append_of_le_length hlen]
  exact List.mem_append_right _ hmem

/-- The last `cap` admitted keys are remembered. -/
theorem Remembers.mem_remembered (h : w.Remembers history) {k : K}
    (hk : k ∈ history.drop (history.length - w.cap)) : k ∈ w.remembered := by
  obtain ⟨older, previous, current, rfl, hprevious, hcurrent, -, -, -, hfull⟩ := h.split
  have hmem : k ∈ previous ++ current := by
    rcases hfull with hfull | ⟨rfl, rfl⟩
    · have hlen : older.length ≤ (older ++ (previous ++ current)).length - w.cap := by
        simp only [List.length_append]
        omega
      rw [List.drop_append, List.drop_eq_nil_of_le hlen, List.nil_append] at hk
      exact List.mem_of_mem_drop hk
    · exact List.mem_of_mem_drop hk
  rw [Window.mem_remembered, ← hprevious, ← hcurrent, List.mem_toFinset, List.mem_toFinset]
  exact (List.mem_append.mp hmem).symm

end

/-! ## Two windows side by side -/

/-- The cold window remembers no key that the warm one does not. -/
def Permissive (warm cold : Window K) : Prop := cold.remembered ⊆ warm.remembered

/-- Whatever the warm window would accept, the cold one would. -/
theorem permissive_iff {warm cold : Window K} :
    Permissive warm cold ↔ ∀ k, (warm.admits k).2 = true → (cold.admits k).2 = true := by
  simp only [admits_snd]
  exact ⟨fun h k hk hc => hk (h hc), fun h k hk => not_not.mp fun hw => h k hw hk⟩

/-- Both windows see the key. -/
def sideBySide (p : Window K × Window K) (k : K) : Option (Window K × Window K) :=
  some ((p.1.admits k).1, (p.2.admits k).1)

/-- The warm window forgets no key that the cold one goes on to remember. -/
def KeepsUp (p : Window K × Window K) (k : K) : Prop :=
  Disjoint (p.1.forgets k) (p.2.admits k).1.remembered

instance (p : Window K × Window K) (k : K) : Decidable (KeepsUp p k) :=
  inferInstanceAs (Decidable (Disjoint _ _))

/-- One key. -/
theorem permissive_admit_iff {warm cold : Window K} (h : Permissive warm cold) (k : K) :
    Permissive (warm.admits k).1 (cold.admits k).1 ↔ KeepsUp (warm, cold) k := by
  unfold Permissive KeepsUp
  rw [remembered_admits warm, Finset.disjoint_left]
  constructor
  · intro hsub x hx hcold
    rcases Finset.mem_insert.mp (hsub hcold) with rfl | hmem
    · exact not_mem_forgets _ _ hx
    · exact (Finset.mem_sdiff.mp hmem).2 hx
  · intro hdisj x hx
    rw [Finset.mem_insert, Finset.mem_sdiff]
    by_cases hxk : x = k
    · exact .inl hxk
    · refine .inr ⟨?_, fun hf => hdisj hf hx⟩
      rw [remembered_admits cold] at hx
      have hmem := (Finset.mem_insert.mp hx).resolve_left hxk
      exact h (Finset.mem_sdiff.mp hmem).1

/-- **Permissive at every moment**, exactly when the warm window never forgets a key that the cold
one goes on to remember. -/
theorem guarded_iff_permissive {warm cold : Window K} (h : Permissive warm cold) (ks : List K) :
    Guarded sideBySide KeepsUp (warm, cold) ks ↔
      ∀ n, Permissive (warm.after (ks.take n)) (cold.after (ks.take n)) := by
  induction ks generalizing warm cold with
  | nil =>
      refine ⟨fun _ n => ?_, fun _ => trivial⟩
      rw [List.take_nil]
      exact h
  | cons k ks ih =>
      rw [guarded_cons]
      constructor
      · rintro ⟨hk, hks⟩ n
        have hnext := (permissive_admit_iff h k).mpr hk
        rcases n with _ | n
        · exact h
        · rw [List.take_succ_cons]
          exact (ih hnext).mp (hks _ rfl) n
      · intro hall
        have hnext : Permissive (warm.admits k).1 (cold.admits k).1 := hall 1
        refine ⟨(permissive_admit_iff h k).mp hnext, fun m hm => ?_⟩
        cases hm
        refine (ih hnext).mpr fun n => ?_
        have hn := hall (n + 1)
        rw [List.take_succ_cons] at hn
        exact hn

/-- Whatever the warm window accepts, a cold one that is permissive at every moment accepts. -/
theorem verdicts_of_permissive {warm cold : Window K} {ks : List K}
    (h : ∀ n, Permissive (warm.after (ks.take n)) (cold.after (ks.take n))) {i : ℕ}
    (hi : (warm.verdicts ks)[i]? = some true) : (cold.verdicts ks)[i]? = some true := by
  rw [verdicts_getElem?] at hi ⊢
  obtain ⟨k, hk, hwarm⟩ := Option.map_eq_some_iff.mp hi
  rw [hk, Option.map_some, permissive_iff.mp (h i) k hwarm]

/-! ## Renaming the keys -/

section map

variable {L : Type*} [DecidableEq L] (f : K ↪ L)

/-- A window of renamed keys. -/
def map (w : Window K) : Window L := ⟨w.current.map f, w.previous.map f, w.cap⟩

theorem admit_map (w : Window K) (k : K) :
    (w.map f).admits (f k) = ((w.admits k).1.map f, (w.admits k).2) := by
  unfold admits map
  simp only [Finset.mem_map', Finset.card_map]
  split
  · rfl
  · split
    · simp
    · simp [Finset.map_insert]

/-- Verdicts do not depend on the names of the keys. -/
theorem verdicts_map (w : Window K) (ks : List K) :
    (w.map f).verdicts (ks.map f) = w.verdicts ks := by
  induction ks generalizing w with
  | nil => rfl
  | cons k ks ih => rw [List.map_cons, verdicts, verdicts, admit_map, ih]

theorem after_map (w : Window K) (ks : List K) : (w.map f).after (ks.map f) = (w.after ks).map f := by
  induction ks generalizing w with
  | nil => rfl
  | cons k ks ih => rw [List.map_cons, after_cons, after_cons, admit_map, ih]

omit [DecidableEq K] [DecidableEq L] in
@[simp] theorem map_empty (cap : ℕ) : (empty cap : Window K).map f = empty cap := rfl

end map

end Window

end Imbh.Lib
