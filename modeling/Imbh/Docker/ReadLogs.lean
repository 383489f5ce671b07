import Mathlib.Data.List.Perm.Subperm
import Mathlib.Data.List.Sort
import Imbh.Lib.Instants
import Imbh.Lib.Runs

/-!
# Reading the logs of a container

A following read of all history: pages of the history by event time, each at the offset after the last,
up to the instant of the start; then polls for what arrived after the newest arrival written.

* `follow_exactly_once` — every row that is visible at the last poll is written once, in a run in which no
  page begins among rows that are written, what the history leaves arrived after what it wrote, and the
  end is not met on a full page.
-/

namespace Imbh.Docker

open Lib List Option

/-- A row of the container, by its event time and its arrival. -/
structure LogRow where
  time : ℤ
  observedTime : ℤ
  deriving DecidableEq

/-- Source: `readlogs.rs` `PAGE` -/
def pageSize : ℕ := 1000

/-- Source: `readlogs.rs` `IDLE_POLLS_BEFORE_EXIT` -/
def idlePollsBeforeExit : ℕ := 5

/-- A request for all history that follows. Source: `readlogs.rs` `ReadRequest` -/
structure ReadRequest where
  since : Option ℤ
  until' : Option ℤ

/-- The row is within the bounds, of which an absent one is dropped from the query.
Source: `readlogs.rs` `ReadRequest::query` -/
def within (start stop : Option ℤ) (r : LogRow) : Bool :=
  (start.all fun t => t ≤ r.time) && stop.all fun t => r.time ≤ t

/-! ## Watermarks -/

/-- Source: `readlogs.rs` `Watermark` -/
structure Watermark where
  observed : Option ℤ
  time : Option ℤ

/-- The later of two instants. Source: `readlogs.rs` `Watermark::merge` -/
def newer : Option ℤ → Option ℤ → Option ℤ
  | m, none => m
  | none, some o => some o
  | some m, some o => some (if m < o then o else m)

/-- Source: `readlogs.rs` `Watermark::merge` -/
def Watermark.merge (m other : Watermark) : Watermark :=
  ⟨newer m.observed other.observed, newer m.time other.time⟩

/-- Source: `readlogs.rs` `Watermark::absorb` -/
def Watermark.absorb (m : Watermark) (r : LogRow) : Watermark := m.merge ⟨some r.observedTime, some r.time⟩

/-- Source: `readlogs.rs` `write_rows` -/
def writeRows (rows : List LogRow) : Watermark := rows.foldl Watermark.absorb ⟨none, none⟩

/-! ## The stream -/

/-- Where the stream is: at a page of the history with its offset, at the polls with the number of idle
ones, or at its end. -/
inductive Phase
  | history (offset : ℕ)
  | follow (idle : ℕ)
  | ended
  deriving DecidableEq

/-- The rows that are visible, and the stream. `lastPoll` has the rows that were visible at the last poll
and the length of its page. -/
structure State where
  visible : List LogRow
  phase : Phase
  written : List LogRow
  mark : Watermark
  lastPoll : Option (List LogRow × ℕ)

def State.init : State := ⟨[], .history 0, [], ⟨none, none⟩, none⟩

/-- What happens: a row becomes visible; a page of history or a poll is read, with the order of its rows in
the database; or the follow stops at its upper bound. -/
inductive Event
  | arrive (r : LogRow)
  | page (sorted : List LogRow)
  | poll (sorted : List LogRow) (active : Bool)
  | stop

section

variable (req : ReadRequest) (startInstant : ℤ)

/-- Source: `readlogs.rs` `stream`, `history_end` -/
def historyEnd : ℤ := req.until'.getD startInstant

/-- The instant that a poll resumes from. Source: `readlogs.rs` `stream` -/
def resumeAfter (mark : Watermark) : ℤ := mark.observed.getD minInstant

/-- The rows of a query are in an order by `key`. -/
def InOrder (key : LogRow → ℤ) (sorted found : List LogRow) : Prop :=
  sorted.Perm found ∧ sorted.Pairwise fun a b => key a ≤ key b

instance (key : LogRow → ℤ) (sorted found : List LogRow) : Decidable (InOrder key sorted found) :=
  inferInstanceAs (Decidable (_ ∧ _))

/-- The upper bound is reached. Source: `readlogs.rs` `stream` -/
def untilReached (s : State) : Bool :=
  match req.until', s.mark.time with
  | some u, some t => u ≤ t
  | _, _ => false

/-- Source: `readlogs.rs` `stream`, `write_history` -/
def step (s : State) : Event → Option State
  | .arrive r =>
      if ∀ v ∈ s.visible, v.observedTime < r.observedTime then some { s with visible := s.visible ++ [r] }
      else none
  | .page sorted =>
      match s.phase with
      | .history offset =>
          if InOrder LogRow.time sorted
              (s.visible.filter (within req.since (some (historyEnd req startInstant)))) then
            let entries := (sorted.drop offset).take pageSize
            some { s with
              written := s.written ++ entries
              mark := s.mark.merge (writeRows entries)
              phase := if entries.length = pageSize then .history (offset + entries.length)
                else .follow 0 }
          else none
      | _ => none
  | .poll sorted active =>
      match s.phase with
      | .follow idle =>
          if untilReached req s = false ∧ InOrder LogRow.observedTime sorted (s.visible.filter fun r =>
              within req.since req.until' r && decide (resumeAfter s.mark < r.observedTime)) then
            let entries := sorted.take pageSize
            some { s with
              written := s.written ++ entries
              mark := s.mark.merge (writeRows entries)
              lastPoll := some (s.visible, entries.length)
              phase := if entries = [] then
                  (if active = false ∧ idlePollsBeforeExit ≤ idle + 1 then .ended else .follow (idle + 1))
                else .follow 0 }
          else none
      | _ => none
  | .stop =>
      match s.phase with
      | .follow _ => if untilReached req s = true then some { s with phase := .ended } else none
      | _ => none

/-- A page begins after what is written: each row of the history that is not written is of a later event
than those that are. The rows that the history left arrived after the watermark of the first poll. The
follow does not stop after a full page. -/
def HandsOver (s : State) : Event → Prop
  | .page _ =>
      ∀ r ∈ s.visible, within req.since (some (historyEnd req startInstant)) r = true → r ∉ s.written →
        ∀ w ∈ s.written, w.time < r.time
  | .poll _ _ =>
      s.lastPoll = none ∨ s.mark.observed = none →
        ∀ r ∈ s.visible, within req.since req.until' r = true → r ∉ s.written →
          resumeAfter s.mark < r.observedTime
  | .stop => ∀ polled, s.lastPoll = some polled → polled.2 < pageSize
  | .arrive _ => True

instance (s : State) : (e : Event) → Decidable (HandsOver req startInstant s e)
  | .arrive _ => .isTrue trivial
  | .page _ => inferInstanceAs (Decidable (∀ r ∈ s.visible, _ → r ∉ s.written → ∀ w ∈ s.written, _))
  | .poll _ _ => inferInstanceAs (Decidable (_ → ∀ r ∈ s.visible, _ → _ → _))
  | .stop => decidable_of_iff (∀ polled ∈ s.lastPoll.toList, polled.2 < pageSize) (by
      simp only [mem_toList]
      rfl)

end

/-! ## The newest -/

/-- The greatest of some instants, if there are any. -/
def IsNewest (found : Option ℤ) (l : List ℤ) : Prop :=
  match found with
  | none => l = []
  | some m => m ∈ l ∧ ∀ x ∈ l, x ≤ m

/-- The newer of two newest instants is the newest of both lists. -/
theorem newer_isNewest {a b : Option ℤ} {l l' : List ℤ} (ha : IsNewest a l) (hb : IsNewest b l') :
    IsNewest (newer a b) (l ++ l') := by
  rcases a with _ | m <;> rcases b with _ | o
  · rw [newer, IsNewest, show l = [] from ha, show l' = [] from hb]
    rfl
  · rw [show l = [] from ha]
    exact hb
  · rw [show l' = [] from hb, append_nil]
    exact ha
  · obtain ⟨hm, hmax⟩ := ha
    obtain ⟨ho, homax⟩ := hb
    rw [newer]
    split
    · rename_i hlt
      refine ⟨mem_append_right _ ho, ?_⟩
      intro x hx
      rcases mem_append.mp hx with hx | hx
      · exact (hmax x hx).trans hlt.le
      · exact homax x hx
    · rename_i hle
      refine ⟨mem_append_left _ hm, ?_⟩
      intro x hx
      rcases mem_append.mp hx with hx | hx
      · exact hmax x hx
      · exact (homax x hx).trans (not_lt.mp hle)

/-- The mark behind a page is its newest observed instant. -/
theorem writeRows_isNewest (rows : List LogRow) :
    IsNewest (writeRows rows).observed (rows.map LogRow.observedTime) := by
  have hfold : ∀ (m : Watermark) (l : List ℤ), IsNewest m.observed l →
      IsNewest (rows.foldl Watermark.absorb m).observed (l ++ rows.map LogRow.observedTime) := by
    induction rows with
    | nil =>
      intro m l h
      rw [map_nil, append_nil]
      exact h
    | cons r rows ih =>
      intro m l h
      have hone : IsNewest (some r.observedTime) [r.observedTime] := by
        refine ⟨mem_singleton_self _, ?_⟩
        intro x hx
        rw [mem_singleton.mp hx]
      have hr := ih (m.absorb r) (l ++ [r.observedTime]) (newer_isNewest h hone)
      rwa [append_assoc] at hr
  exact hfold ⟨none, none⟩ [] rfl

/-! ## The invariant -/

/-- What is written is visible, once, and of the window; a page begins after it; after a poll, what is due
arrived after the watermark; and a poll with a short page left nothing. -/
structure Inv (req : ReadRequest) (startInstant : ℤ) (s : State) : Prop where
  increasing : s.visible.Pairwise fun a b => a.observedTime < b.observedTime
  nodup : s.written.Nodup
  written : ∀ r ∈ s.written, r ∈ s.visible ∧ within req.since req.until' r = true
  newest : IsNewest s.mark.observed (s.written.map LogRow.observedTime)
  history : ∀ offset, s.phase = .history offset → offset = s.written.length ∧ s.lastPoll = none ∧
    ∀ r ∈ s.written, within req.since (some (historyEnd req startInstant)) r = true
  resumed : s.lastPoll ≠ none → s.mark.observed ≠ none → ∀ r ∈ s.visible,
    within req.since req.until' r = true → r ∉ s.written → resumeAfter s.mark < r.observedTime
  delivered : ∀ polled, s.lastPoll = some polled → polled.2 < pageSize → ∀ r ∈ polled.1,
    within req.since req.until' r = true → r ∈ s.written
  ended : s.phase = .ended → ∀ polled, s.lastPoll = some polled → polled.2 < pageSize

section

variable {req : ReadRequest} {startInstant : ℤ} {s s' : State} {sorted : List LogRow}

theorem Inv.visible_nodup (h : Inv req startInstant s) : s.visible.Nodup := by
  apply h.increasing.imp
  rintro a _ hab rfl
  exact absurd hab (lt_irrefl _)

/-- An arrival is that of one row. -/
theorem Inv.eq_of_observed (h : Inv req startInstant s) {a b : LogRow} (ha : a ∈ s.visible)
    (hb : b ∈ s.visible) (heq : a.observedTime = b.observedTime) : a = b := by
  apply inj_on_of_nodup_map _ ha hb heq
  apply pairwise_map.mpr
  exact h.increasing.imp fun hab => hab.ne

/-- What is written did not arrive after the watermark. -/
theorem Inv.le_resumeAfter (h : Inv req startInstant s) {w : LogRow} (hw : w ∈ s.written) :
    w.observedTime ≤ resumeAfter s.mark := by
  have hmem : w.observedTime ∈ s.written.map LogRow.observedTime := mem_map_of_mem hw
  have hnewest := h.newest
  unfold resumeAfter
  rcases hm : s.mark.observed with _ | m <;> rw [hm] at hnewest
  · rw [show s.written.map LogRow.observedTime = [] from hnewest] at hmem
    exact absurd hmem not_mem_nil
  · exact hnewest.2 _ hmem

theorem within_of_history {r : LogRow}
    (h : within req.since (some (historyEnd req startInstant)) r = true) :
    within req.since req.until' r = true := by
  unfold within historyEnd at *
  rcases hu : req.until' with _ | u <;> rw [hu] at h
  · rw [Bool.and_eq_true] at h ⊢
    exact ⟨h.1, rfl⟩
  · exact h

/-- Of a sorted list, a part that is below all else is a prefix. -/
theorem take_perm_of_below {key : LogRow → ℤ} {part : List LogRow}
    (hsorted : sorted.Pairwise fun a b => key a ≤ key b) (hnodup : sorted.Nodup) (hpart : part.Nodup)
    (hsub : part ⊆ sorted) (hbelow : ∀ r ∈ sorted, r ∉ part → ∀ w ∈ part, key w < key r) :
    (sorted.take part.length).Perm part := by
  have hlength : part.length ≤ sorted.length := (hpart.subperm hsub).length_le
  have htake : (sorted.take part.length).length = part.length := by
    rw [length_take, Nat.min_eq_left hlength]
  have htakeNodup : (sorted.take part.length).Nodup := hnodup.sublist (take_sublist _ _)
  have hsubset : sorted.take part.length ⊆ part := by
    intro x hx
    by_contra hnot
    -- As many as the part, and one is not of it: then one of the part comes after.
    have hmissing : ∃ w ∈ part, w ∉ sorted.take part.length := by
      by_contra hall
      have hin : part ⊆ sorted.take part.length := by
        intro w hw
        by_contra hw'
        exact hall ⟨w, hw, hw'⟩
      have hperm := (hpart.subperm hin).perm_of_length_le htake.le
      exact hnot (hperm.mem_iff.mpr hx)
    obtain ⟨w, hw, hwout⟩ := hmissing
    have hwdrop : w ∈ sorted.drop part.length := by
      have hwin := hsub hw
      rw [← take_append_drop part.length sorted] at hwin
      exact (mem_append.mp hwin).resolve_left hwout
    have hle : key x ≤ key w := by
      rw [← take_append_drop part.length sorted] at hsorted
      exact (pairwise_append.mp hsorted).2.2 x hx w hwdrop
    exact absurd (hbelow x (mem_of_mem_take hx) hnot w hw) (not_lt.mpr hle)
  exact (htakeNodup.subperm hsubset).perm_of_length_le htake.ge

/-- A row that arrives keeps the invariant. -/
theorem arrive_inv {r : LogRow} (h : Inv req startInstant s)
    (hr : ∀ v ∈ s.visible, v.observedTime < r.observedTime) :
    Inv req startInstant { s with visible := s.visible ++ [r] } where
  increasing := by
    refine pairwise_append.mpr ⟨h.increasing, pairwise_singleton _ _, ?_⟩
    intro a ha b hb
    rw [mem_singleton.mp hb]
    exact hr a ha
  nodup := h.nodup
  written w hw := ⟨mem_append_left _ (h.written w hw).1, (h.written w hw).2⟩
  newest := h.newest
  history := h.history
  resumed hpoll hmark x hx hwithin hout := by
    rcases mem_append.mp hx with hx | hx
    · exact h.resumed hpoll hmark x hx hwithin hout
    · -- The watermark is the arrival of a row that was visible before.
      rw [mem_singleton.mp hx]
      have hnewest := h.newest
      obtain ⟨m, hm⟩ := ne_none_iff_exists'.mp hmark
      have hm' : s.mark.observed = some m := hm
      rw [hm'] at hnewest
      obtain ⟨w, hw, hwm⟩ := mem_map.mp hnewest.1
      unfold resumeAfter
      dsimp only
      rw [hm', getD_some, ← hwm]
      exact hr w (h.written w hw).1
  delivered := h.delivered
  ended := h.ended

/-- A page of the history that hands over keeps it. -/
theorem page_inv {offset : ℕ} (h : Inv req startInstant s) (hphase : s.phase = .history offset)
    (horder : InOrder LogRow.time sorted (s.visible.filter (within req.since (some (historyEnd req startInstant)))))
    (hok : HandsOver req startInstant s (.page sorted)) :
    Inv req startInstant { s with
      written := s.written ++ (sorted.drop offset).take pageSize
      mark := s.mark.merge (writeRows ((sorted.drop offset).take pageSize))
      phase := if ((sorted.drop offset).take pageSize).length = pageSize
        then .history (offset + ((sorted.drop offset).take pageSize).length) else .follow 0 } := by
  obtain ⟨hoffset, hpoll, hinside⟩ := h.history offset hphase
  obtain ⟨hperm, hsorted⟩ := horder
  have hmem : ∀ r, r ∈ sorted ↔ r ∈ s.visible ∧
      within req.since (some (historyEnd req startInstant)) r = true := by
    intro r
    rw [hperm.mem_iff, mem_filter]
  have hsortedNodup : sorted.Nodup := hperm.nodup_iff.mpr (h.visible_nodup.filter _)
  have hprefix : (sorted.take offset).Perm s.written := by
    rw [hoffset]
    apply take_perm_of_below hsorted hsortedNodup h.nodup
    · intro w hw
      exact (hmem w).mpr ⟨(h.written w hw).1, hinside w hw⟩
    · intro r hr hout w hw
      obtain ⟨hvisible, hwithin⟩ := (hmem r).mp hr
      exact hok r hvisible hwithin hout w hw
  have hentries : ∀ r ∈ (sorted.drop offset).take pageSize, r ∈ sorted ∧ r ∉ s.written := by
    intro r hr
    have hdrop := mem_of_mem_take hr
    refine ⟨mem_of_mem_drop hdrop, ?_⟩
    intro hwritten
    have htake := hprefix.mem_iff.mpr hwritten
    exact disjoint_take_drop hsortedNodup (le_refl offset) htake hdrop
  refine ⟨h.increasing, ?_, ?_, ?_, ?_, ?_, ?_, ?_⟩
  · have hentriesNodup : ((sorted.drop offset).take pageSize).Nodup :=
      hsortedNodup.sublist ((take_sublist _ _).trans (drop_sublist _ _))
    apply Nodup.append h.nodup hentriesNodup
    intro r hr hr'
    exact (hentries r hr').2 hr
  · intro r hr
    rcases mem_append.mp hr with hr | hr
    · exact h.written r hr
    · obtain ⟨hvisible, hwithin⟩ := (hmem r).mp (hentries r hr).1
      exact ⟨hvisible, within_of_history hwithin⟩
  · dsimp only
    rw [map_append]
    exact newer_isNewest h.newest (writeRows_isNewest _)
  · intro offset' hphase'
    dsimp only at hphase'
    split at hphase'
    · refine ⟨?_, hpoll, ?_⟩
      · rw [← Phase.history.inj hphase', length_append, hoffset]
      · intro r hr
        rcases mem_append.mp hr with hr | hr
        · exact hinside r hr
        · exact ((hmem r).mp (hentries r hr).1).2
    · exact absurd hphase' (by simp)
  · exact fun hne => absurd hpoll hne
  · intro polled hpolled
    exact absurd (hpoll.symm.trans hpolled) (by simp)
  · intro hended polled hpolled
    exact absurd (hpoll.symm.trans hpolled) (by simp)

/-- What a poll finds is what is due: the rows of the window that are not written. -/
theorem poll_mem {active : Bool} (h : Inv req startInstant s)
    (horder : InOrder LogRow.observedTime sorted (s.visible.filter fun r =>
      within req.since req.until' r && decide (resumeAfter s.mark < r.observedTime)))
    (hok : HandsOver req startInstant s (.poll sorted active)) (r : LogRow) :
    r ∈ sorted ↔ r ∈ s.visible ∧ within req.since req.until' r = true ∧ r ∉ s.written := by
  rw [horder.1.mem_iff, mem_filter, Bool.and_eq_true, decide_eq_true_eq]
  constructor
  · rintro ⟨hvisible, hwithin, hafter⟩
    refine ⟨hvisible, hwithin, ?_⟩
    intro hw
    exact absurd (h.le_resumeAfter hw) (not_le.mpr hafter)
  · rintro ⟨hvisible, hwithin, hout⟩
    refine ⟨hvisible, hwithin, ?_⟩
    by_cases hfirst : s.lastPoll = none ∨ s.mark.observed = none
    · exact hok hfirst r hvisible hwithin hout
    · obtain ⟨hpoll, hmark⟩ := not_or.mp hfirst
      exact h.resumed hpoll hmark r hvisible hwithin hout

/-- So does a poll behind the mark. -/
theorem poll_inv {active : Bool} {phase : Phase} (h : Inv req startInstant s)
    (horder : InOrder LogRow.observedTime sorted (s.visible.filter fun r =>
      within req.since req.until' r && decide (resumeAfter s.mark < r.observedTime)))
    (hok : HandsOver req startInstant s (.poll sorted active)) (hphase : ∀ offset, phase ≠ .history offset)
    (hended : phase = .ended → sorted.take pageSize = []) :
    Inv req startInstant { s with
      written := s.written ++ sorted.take pageSize
      mark := s.mark.merge (writeRows (sorted.take pageSize))
      lastPoll := some (s.visible, (sorted.take pageSize).length)
      phase := phase } := by
  have hmem := poll_mem h horder hok
  have hsortedNodup : sorted.Nodup := horder.1.nodup_iff.mpr (h.visible_nodup.filter _)
  have hnewest : IsNewest (s.mark.merge (writeRows (sorted.take pageSize))).observed
      ((s.written ++ sorted.take pageSize).map LogRow.observedTime) := by
    rw [map_append]
    exact newer_isNewest h.newest (writeRows_isNewest _)
  refine ⟨h.increasing, ?_, ?_, hnewest, ?_, ?_, ?_, ?_⟩
  · apply Nodup.append h.nodup (hsortedNodup.sublist (take_sublist _ _))
    intro r hr hr'
    exact ((hmem r).mp (mem_of_mem_take hr')).2.2 hr
  · intro r hr
    rcases mem_append.mp hr with hr | hr
    · exact h.written r hr
    · obtain ⟨hvisible, hwithin, -⟩ := (hmem r).mp (mem_of_mem_take hr)
      exact ⟨hvisible, hwithin⟩
  · intro offset hoffset
    exact absurd hoffset (hphase offset)
  · intro _ hmark r hvisible hwithin hout
    obtain ⟨hout, hrest⟩ := not_or.mp (mt mem_append.mpr hout)
    have hfound : r ∈ sorted := (hmem r).mpr ⟨hvisible, hwithin, hout⟩
    obtain ⟨m, hm⟩ := ne_none_iff_exists'.mp hmark
    dsimp only at hm
    rw [hm] at hnewest
    obtain ⟨w, hw, hwm⟩ := mem_map.mp hnewest.1
    unfold resumeAfter
    dsimp only
    rw [hm, getD_some, ← hwm]
    rcases mem_append.mp hw with hw | hw
    · -- What was written before arrived before all that the poll found.
      have hafter := (mem_filter.mp (horder.1.mem_iff.mp hfound)).2
      rw [Bool.and_eq_true, decide_eq_true_eq] at hafter
      exact (h.le_resumeAfter hw).trans_lt hafter.2
    · -- The page is cut on the clock that the watermark advances along.
      have hle : w.observedTime ≤ r.observedTime := by
        have hsorted := horder.2
        rw [← take_append_drop pageSize sorted] at hsorted hfound
        have hdrop := (mem_append.mp hfound).resolve_left hrest
        exact (pairwise_append.mp hsorted).2.2 w hw r hdrop
      apply lt_of_le_of_ne hle
      intro heq
      have hwvisible := ((hmem w).mp (mem_of_mem_take hw)).1
      rw [h.eq_of_observed hwvisible hvisible heq] at hw
      exact hrest hw
  · intro polled hpolled hshort r hr hwithin
    cases hpolled
    have hall : sorted.take pageSize = sorted := by
      apply take_of_length_le
      rw [length_take] at hshort
      omega
    dsimp only
    rw [hall, mem_append]
    by_cases hw : r ∈ s.written
    · exact .inl hw
    · exact .inr ((hmem r).mpr ⟨hr, hwithin, hw⟩)
  · intro hend polled hpolled
    cases hpolled
    rw [hended hend]
    exact Nat.zero_lt_succ _

/-- So does the end of the history without a follow. -/
theorem stop_inv (h : Inv req startInstant s) (hok : HandsOver req startInstant s .stop) :
    Inv req startInstant { s with phase := .ended } where
  increasing := h.increasing
  nodup := h.nodup
  written := h.written
  newest := h.newest
  history offset hoffset := absurd hoffset (by simp)
  resumed := h.resumed
  delivered := h.delivered
  ended _ := hok

/-- Every step that hands over keeps it. -/
theorem step_inv {e : Event} (h : Inv req startInstant s) (hok : HandsOver req startInstant s e)
    (hstep : step req startInstant s e = some s') : Inv req startInstant s' := by
  cases e with
  | arrive r =>
    rw [step] at hstep
    split at hstep
    · cases hstep
      apply arrive_inv h
      assumption
    · cases hstep
  | page sorted =>
    rw [step] at hstep
    split at hstep
    · split at hstep
      · cases hstep
        apply page_inv h _ _ hok <;> assumption
      · cases hstep
    · cases hstep
  | poll sorted active =>
    rw [step] at hstep
    split at hstep
    · split at hstep
      · rename_i horder
        cases hstep
        apply poll_inv h horder.2 hok
        · intro offset
          split <;> [split; skip] <;> simp
        · intro hend
          by_contra hne
          rw [if_neg hne] at hend
          cases hend
      · cases hstep
    · cases hstep
  | stop =>
    rw [step] at hstep
    split at hstep
    · split at hstep
      · cases hstep
        exact stop_inv h hok
      · cases hstep
    · cases hstep

/-- It holds before the first page. -/
theorem init_inv : Inv req startInstant State.init where
  increasing := .nil
  nodup := .nil
  written _ hr := absurd hr not_mem_nil
  newest := rfl
  history offset hoffset := by
    refine ⟨(Phase.history.inj hoffset).symm, rfl, ?_⟩
    intro r hr
    exact absurd hr not_mem_nil
  resumed hpoll := absurd rfl hpoll
  delivered polled hpolled := absurd hpolled (by simp [State.init])
  ended hend := absurd hend (by simp [State.init])

end

/-- Each row of the window that is visible at the last poll is written once, when the stream has ended or
the page of that poll was short; and only such rows are written, at any time. -/
theorem follow_exactly_once {req : ReadRequest} {startInstant : ℤ} {es : List Event} {s : State}
    (hrun : run (step req startInstant) State.init es = some s)
    (hok : Guarded (step req startInstant) (HandsOver req startInstant) State.init es) :
    s.written.Nodup ∧ (∀ r ∈ s.written, r ∈ s.visible ∧ within req.since req.until' r = true) ∧
      ∀ polled, s.lastPoll = some polled → s.phase = .ended ∨ polled.2 < pageSize →
        ∀ r ∈ polled.1, within req.since req.until' r = true → s.written.count r = 1 := by
  have hinv : Inv req startInstant s :=
    run_induction (Inv req startInstant) (fun _ _ _ h hok hstep => step_inv h hok hstep) init_inv hok hrun
  refine ⟨hinv.nodup, hinv.written, ?_⟩
  intro polled hpolled hdone r hr hwithin
  have hshort : polled.2 < pageSize := hdone.elim (fun hend => hinv.ended hend polled hpolled) id
  exact count_eq_one_of_mem hinv.nodup (hinv.delivered polled hpolled hshort r hr hwithin)

/-- A read from instant 100 meets a row that is dated at 5 and one that is dated at 200. -/
theorem follow_exactly_once_late :
    ∃ s, run (step ⟨none, none⟩ 100) State.init
        [.arrive ⟨10, 1⟩, .arrive ⟨10, 2⟩, .page [⟨10, 2⟩, ⟨10, 1⟩], .arrive ⟨5, 3⟩, .arrive ⟨200, 4⟩,
          .poll [⟨5, 3⟩, ⟨200, 4⟩] true] = some s ∧
      s.written.count ⟨5, 3⟩ = 1 ∧ s.written.count ⟨200, 4⟩ = 1 := by
  obtain ⟨s, hs, hpolled⟩ : ∃ s, run (step ⟨none, none⟩ 100) State.init
        [.arrive ⟨10, 1⟩, .arrive ⟨10, 2⟩, .page [⟨10, 2⟩, ⟨10, 1⟩], .arrive ⟨5, 3⟩, .arrive ⟨200, 4⟩,
          .poll [⟨5, 3⟩, ⟨200, 4⟩] true] = some s ∧
      s.lastPoll = some ([⟨10, 1⟩, ⟨10, 2⟩, ⟨5, 3⟩, ⟨200, 4⟩], 2) := ⟨_, rfl, rfl⟩
  have honce := (follow_exactly_once hs (by decide)).2.2 _ hpolled (.inr (by decide))
  exact ⟨s, hs, honce ⟨5, 3⟩ (by decide) (by decide), honce ⟨200, 4⟩ (by decide) (by decide)⟩

/-- The first row is dated after the start and arrives before the second, which the history writes. No
poll finds it. -/
theorem future_row_skipped :
    ¬ ∀ (req : ReadRequest) (startInstant : ℤ) (es : List Event) (s : State),
      run (step req startInstant) State.init es = some s → s.phase = .ended →
      ∀ polled, s.lastPoll = some polled → ∀ r ∈ polled.1,
        within req.since req.until' r = true → s.written.count r = 1 := by
  intro h
  have hskipped := h ⟨none, none⟩ 100
    [.arrive ⟨200, 1⟩, .arrive ⟨50, 2⟩, .page [⟨50, 2⟩], .poll [] false, .poll [] false, .poll [] false,
      .poll [] false, .poll [] false] _ rfl rfl _ rfl ⟨200, 1⟩ (by decide) (by decide)
  exact absurd hskipped (by decide)

end Imbh.Docker
