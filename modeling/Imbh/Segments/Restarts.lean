import Imbh.Segments.Overlap

/-!
# Restarts

The writer may stop between any two effects. When it opens the database again, it first unlinks the files that neither
the manifest nor a record names, one after the other, and may stop again. A preparer is another process, and goes on.

* `rows_survive_crashes` — the result for runs; `output_waits` — who unlinks the output of a record.
-/

namespace Imbh.Segments

open Lib List Option Function
open Storage (Table)

variable {D P : Type}

/-! ## The writer and its process -/

/-- Where the writer is: open, not running, or unlinking the files that are not referenced.
Source: `lib.rs` `Storage::open`, `cleanup_orphans` -/
inductive Phase
  | up
  | down
  | sweeping (referenced : List Text)
  deriving DecidableEq

/-- A database; `applied` is kept by no code. -/
structure Site (D P : Type) where
  world : World D P
  phase : Phase
  applied : List (PendingRewrite P)

/-- What happens: a step of an operation; the unlinks of a commit, when the file of the record is not unlinked; a
preparer that leaves an output without a record; and the end and the start of the writer's process. -/
inductive Event (D P : Type)
  | turn (e : Turn D P)
  | keepRecord (refused : Text → Bool)
  | abandon (job : ℕ) (path : Text)
  | crash
  | restart
  | sweep (path : Text)
  | opened

/-- The steps of another process. -/
def Turn.ofPreparer : Turn D P → Bool
  | .prepareRead .. | .prepareWrite .. => true
  | _ => false

/-- The record that a step of a commit applies. -/
def World.admitted [DecidableEq P] (digestFile : List (TimedRow D) → ℕ) (s : World D P) :
    Turn D P → Option (PendingRewrite P)
  | .commitRecord =>
      match s.commit with
      | some ⟨livePromote, (_, some rec) :: _, none⟩ =>
          if rec.admissible digestFile livePromote s.base.files (s.base.listed rec.table) then some rec else none
      | _ => none
  | _ => none

/-- The files that a sweep leaves. -/
def World.referenced (s : World D P) : List Text :=
  (Table.all.flatMap fun t => paths (s.base.listed t)) ++
    (s.pending.filterMap Prod.snd).map fun rec => rec.output.relativePath

/-- What is left of the operations when the writer stops. -/
def World.stopped (s : World D P) : World D P :=
  { s with passes := fun _ => none, seals := fun _ => none, commit := none }

/-- A file is unlinked that is not listed. -/
def Shelf.sweep (b : Shelf D) (path : Text) : Shelf D := { b with files := update b.files path none }

namespace Site

def empty : Site D P where
  world := .empty
  phase := .up
  applied := []

def step [DecidableEq P] (digestFile : List (TimedRow D) → ℕ) (s : Site D P) : Event D P → Option (Site D P)
  | .turn e =>
      if s.phase = .up ∨ e.ofPreparer = true then
        (s.world.step digestFile e).map fun w =>
          { s with world := w, applied := s.applied ++ (s.world.admitted digestFile e).toList }
      else none
  | .keepRecord refused =>
      match s.phase, s.world.commit with
      | .up, some ⟨livePromote, left, some (doomed, _)⟩ =>
          some { s with
            world := { s.world with
              base := s.world.base.discard doomed refused
              commit := some ⟨livePromote, left, none⟩ } }
      | _, _ => none
  | .abandon job path =>
      match s.world.preparing job with
      | some (_, group) =>
          match readGroup s.world.base.files group with
          | some (r :: rows) =>
              if s.world.base.written path = none then
                some { s with
                  world := { s.world with
                    base := s.world.base.put path .record (concatAndSort (r :: rows))
                    preparing := update s.world.preparing job none } }
              else none
          | _ => none
      | none => none
  | .crash => some { s with world := s.world.stopped, phase := .down }
  | .restart =>
      match s.phase with
      | .down => some { s with phase := .sweeping s.world.referenced }
      | _ => none
  | .sweep path =>
      match s.phase with
      | .sweeping referenced =>
          if path ∈ referenced then none
          else some { s with world := { s.world with base := s.world.base.sweep path } }
      | _ => none
  | .opened =>
      match s.phase with
      | .sweeping _ => some { s with phase := .up }
      | _ => none

end Site

/-! ## What is listed goes on -/

/-- What was taken from the lists is never listed again, and what is listed is taken from them at most. -/
structure Shelf.Onward (b b' : Shelf D) : Prop where
  retired : ∀ p ∈ b.retired, p ∈ b'.retired
  listed : ∀ t, ∀ p ∈ paths (b.listed t), p ∈ paths (b'.listed t) ∨ p ∈ b'.retired

namespace Shelf

variable (b : Shelf D)

/-- The lists have not changed. -/
theorem Onward.of_eq {b b' : Shelf D} (hretired : b'.retired = b.retired) (hlisted : b'.listed = b.listed) :
    b.Onward b' :=
  ⟨fun _ h => hretired ▸ h, fun _ _ h => .inl (hlisted ▸ h)⟩

theorem onward_register (refs : List (Table × SegmentRef)) : b.Onward (b.register refs) :=
  ⟨fun _ h => h, fun t p h => .inl (by rw [register, paths_append]; exact mem_append_left _ h)⟩

theorem mem_foldl_push {current produced : List SegmentRef} {s : SegmentRef} (h : s ∈ current) :
    s ∈ produced.foldl pushUnlessPresent current := by
  induction produced generalizing current with
  | nil => exact h
  | cons p produced ih =>
    refine ih ?_
    unfold pushUnlessPresent
    split
    · exact h
    · exact mem_append_left _ h

/-- A list from which names are taken. -/
theorem mem_filter_paths {ss : List SegmentRef} {p : Text} (h : p ∈ paths ss) (names : List Text) :
    p ∈ paths (ss.filter fun s => s.relativePath ∉ names) ∨ p ∈ names := by
  obtain ⟨s, hs, rfl⟩ := mem_paths.mp h
  by_cases hp : s.relativePath ∈ names
  · exact .inr hp
  · exact .inl (mem_paths_of_mem (mem_filter.mpr ⟨hs, decide_eq_true hp⟩))

theorem onward_reconcile (x : Rewrite D) : b.Onward (b.reconcile x) := by
  refine ⟨fun _ h => mem_append_left _ h, fun t p h => ?_⟩
  rcases mem_filter_paths h (paths x.deferredDeletes) with hkept | hgone
  · obtain ⟨s, hs, rfl⟩ := mem_paths.mp hkept
    exact .inl (mem_paths_of_mem (mem_foldl_push hs))
  · exact .inr (mem_append_right _ hgone)

theorem onward_drop (names : List Text) : b.Onward (b.drop names) :=
  ⟨fun _ h => mem_append_left _ h, fun _ _ h => (mem_filter_paths h _).imp_right (mem_append_right _)⟩

theorem onward_swap (rec : PendingRewrite P) : b.Onward (b.swap rec) := by
  refine ⟨fun _ h => mem_append_left _ h, fun t p h => ?_⟩
  by_cases ht : t = rec.table
  · have hself : (b.swap rec).listed rec.table = rec.swap (b.listed rec.table) :=
      update_self rec.table _ b.listed
    rw [ht] at h ⊢
    rw [hself, PendingRewrite.swap, paths_append]
    exact (mem_filter_paths h _).imp (mem_append_left _) (mem_append_right _)
  · have hother : (b.swap rec).listed t = b.listed t := update_of_ne ht _ b.listed
    exact .inl (hother ▸ h)

section sweep

variable {b} {path : Text} (hpath : ∀ t, path ∉ paths (b.listed t))
include hpath

theorem Ok.sweep (h : b.Ok) : (b.sweep path).Ok where
  distinct := h.distinct
  there t s hs := by
    have hne : s.relativePath ≠ path := fun heq => hpath t (heq ▸ mem_paths_of_mem hs)
    have hsame : (b.sweep path).files s.relativePath = b.files s.relativePath := update_of_ne hne _ b.files
    rw [hsame]
    exact h.there t s hs
  genuine p rows hp := by
    by_cases heq : p = path
    · have hnone : (b.sweep path).files path = none := update_self path _ b.files
      rw [heq, hnone] at hp
      cases hp
    · have hsame : (b.sweep path).files p = b.files p := update_of_ne heq _ b.files
      exact h.genuine p rows (hsame ▸ hp)
  live := h.live
  ever := h.ever
  rows := h.rows

end sweep

/-- An output may be swept. -/
theorem RecordOk.sweep {b : Shelf D} {r : PendingRewrite P} (h : b.RecordOk r) (path : Text) :
    (b.sweep path).RecordOk r where
  inputs := h.inputs
  written := h.written
  rows := h.rows
  output := h.output.imp_left fun htransit =>
    ⟨htransit.written, htransit.writer, fun hw => absurd rfl hw, htransit.unretired, htransit.unlisted⟩

end Shelf

namespace World

variable {s s' : World D P}

/-! ## What a step does -/

/-- What a step does to the files and the lists. -/
inductive Does (s : World D P) : Turn D P → Shelf D → Prop
  | nothing (e : Turn D P) : Does s e s.base
  | put (e : Turn D P) {path : Text} (hfresh : s.base.written path = none) (w : Writer) (rows : List (TimedRow D)) :
      Does s e (s.base.put path w rows)
  | register (e : Turn D P) (refs : List (Table × SegmentRef)) : Does s e (s.base.register refs)
  | reconcile (e : Turn D P) (x : Rewrite D) : Does s e (s.base.reconcile x)
  | drop (e : Turn D P) {names : List Text} (hlisted : ∀ p ∈ names, ∃ t, p ∈ paths (s.base.listed t))
      (refused : Text → Bool) : Does s e ((s.base.drop names).discard names refused)
  | swap (e : Turn D P) (rec : PendingRewrite P) : Does s e (s.base.swap rec)
  | reclaim (e : Turn D P) {call : ℕ} {doomed : List Text} (hat : s.passes call = some (.reclaiming doomed))
      (refused : Text → Bool) : Does s e (s.base.discard doomed refused)
  | unlink {commit : Commit P} {doomed : List Text} {name : Text} (hat : s.commit = some commit)
      (hafter : commit.after = some (doomed, name)) (refused : Text → Bool) :
      Does s (.commitUnlink refused) (s.base.discard doomed refused)

theorem compactStep_does {e : Turn D P} (h : s.compactStep e = some s') : s.Does e s'.base := by
  cases e with
  | snapshot call maxPartitions =>
    simp only [compactStep] at h
    split at h
    · exact some.inj h ▸ .nothing _
    · cases h
  | group call lags path =>
    simp only [compactStep] at h
    repeat' split at h
    all_goals first
      | exact some.inj h ▸ .nothing _
      | exact some.inj h ▸ .put _ (by assumption) _ _
      | cases h
  | reconcile call =>
    simp only [compactStep] at h
    split at h
    · exact some.inj h ▸ .reconcile _ _
    · cases h
  | reclaim call refused =>
    simp only [compactStep] at h
    split at h
    · rename_i doomed hat
      exact some.inj h ▸ .reclaim _ hat refused
    · cases h
  | _ => cases h

theorem sealStep_does {e : Turn D P} (h : s.sealStep e = some s') : s.Does e s'.base := by
  cases e with
  | sealFile call t path rows =>
    simp only [sealStep] at h
    split at h
    · rename_i hfresh
      exact some.inj h ▸ .put _ hfresh.2 _ _
    · cases h
  | register call =>
    simp only [sealStep] at h
    split at h
    · exact some.inj h ▸ .register _ _
    · cases h
  | sealFailed call => exact some.inj h ▸ .nothing _
  | retain policy now size refused =>
    exact some.inj h ▸ .drop _ (fun _ => Shelf.listed_of_mem_dropSet) refused
  | _ => cases h

variable {digestFile : List (TimedRow D) → ℕ}

theorem prepareStep_does {e : Turn D P} (h : s.prepareStep digestFile e = some s') : s.Does e s'.base := by
  cases e with
  | prepareRead job t group =>
    simp only [prepareStep] at h
    split at h
    · exact some.inj h ▸ .nothing _
    · cases h
  | prepareWrite job path name promote torn =>
    simp only [prepareStep] at h
    repeat' split at h
    all_goals first
      | exact some.inj h ▸ .nothing _
      | exact some.inj h ▸ .put _ (by assumption) _ _
      | cases h
  | _ => cases h

theorem commitStep_does [DecidableEq P] {e : Turn D P} (h : s.commitStep digestFile e = some s') :
    s.Does e s'.base := by
  cases e with
  | commitList | commitRecord | commitEnd =>
    simp only [commitStep] at h
    repeat' split at h
    all_goals first
      | exact some.inj h ▸ .nothing _
      | exact some.inj h ▸ .swap _ _
      | cases h
  | commitUnlink refused =>
    simp only [commitStep] at h
    split at h
    · rename_i livePromote left doomed name hat
      exact some.inj h ▸ .unlink hat rfl refused
    · cases h
  | _ => cases h

theorem step_does [DecidableEq P] {e : Turn D P} (h : s.step digestFile e = some s') : s.Does e s'.base := by
  rcases s.step_cases digestFile e with heq | heq | heq | heq
  · exact compactStep_does (heq ▸ h)
  · exact sealStep_does (heq ▸ h)
  · exact prepareStep_does (heq ▸ h)
  · exact commitStep_does (heq ▸ h)

theorem Does.onward {e : Turn D P} {b : Shelf D} (h : s.Does e b) : s.base.Onward b := by
  cases h with
  | nothing => exact .of_eq rfl rfl
  | put => exact .of_eq rfl rfl
  | register _ refs => exact s.base.onward_register refs
  | reconcile _ x => exact s.base.onward_reconcile x
  | @drop _ names _ refused =>
    have hdrop := s.base.onward_drop names
    exact ⟨hdrop.retired, hdrop.listed⟩
  | swap _ rec => exact s.base.onward_swap rec
  | reclaim => exact .of_eq rfl rfl
  | unlink => exact .of_eq rfl rfl

/-- A preparer changes no list, and leaves the operations of the writer alone. -/
structure Aside (s s' : World D P) : Prop where
  listed : s'.base.listed = s.base.listed
  passes : s'.passes = s.passes
  seals : s'.seals = s.seals
  commit : s'.commit = s.commit

theorem prepareStep_aside {e : Turn D P} (h : s.prepareStep digestFile e = some s') : s.Aside s' := by
  cases e with
  | prepareRead job t group =>
    simp only [prepareStep] at h
    split at h
    · obtain rfl := some.inj h
      exact ⟨rfl, rfl, rfl, rfl⟩
    · cases h
  | prepareWrite job path name promote torn =>
    simp only [prepareStep] at h
    repeat' split at h
    all_goals first
      | obtain rfl := some.inj h
        exact ⟨rfl, rfl, rfl, rfl⟩
      | cases h
  | _ => cases h

theorem step_aside [DecidableEq P] {e : Turn D P} (he : e.ofPreparer = true) (h : s.step digestFile e = some s') :
    s.Aside s' := by
  cases e with
  | prepareRead job t group => exact @prepareStep_aside D P s s' digestFile (.prepareRead job t group) h
  | prepareWrite job path name promote torn =>
    exact @prepareStep_aside D P s s' digestFile (.prepareWrite job path name promote torn) h
  | _ => exact absurd he Bool.false_ne_true

/-- What a commit is about to unlink is retired, or is one output. -/
def Doomed (s : World D P) : Prop := ∀ commit doomed name, s.commit = some commit →
  commit.after = some (doomed, name) → (∀ p ∈ doomed, p ∈ s.base.retired) ∨ ∃ p, doomed = [p]

theorem Doomed.onward (h : s.Doomed) (hbase : s.base.Onward s'.base) (hcommit : s'.commit = s.commit) : s'.Doomed := by
  intro commit doomed name hat hafter
  exact (h commit doomed name (hcommit ▸ hat) hafter).imp_left fun hretired p hp => hbase.retired p (hretired p hp)

theorem compactStep_commit {e : Turn D P} (h : s.compactStep e = some s') : s'.commit = s.commit := by
  cases e with
  | snapshot | group | reconcile | reclaim =>
    simp only [compactStep] at h
    repeat' split at h
    all_goals first
      | obtain rfl := some.inj h
        rfl
      | cases h
  | _ => cases h

theorem sealStep_commit {e : Turn D P} (h : s.sealStep e = some s') : s'.commit = s.commit := by
  cases e with
  | sealFile | register | sealFailed | retain =>
    simp only [sealStep] at h
    repeat' split at h
    all_goals first
      | obtain rfl := some.inj h
        rfl
      | cases h
  | _ => cases h

theorem commitStep_doomed [DecidableEq P] {e : Turn D P} (h : s.commitStep digestFile e = some s') : s'.Doomed := by
  intro commit doomed name hat hafter
  cases e with
  | commitRecord =>
    simp only [commitStep] at h
    repeat' split at h
    all_goals try cases h
    all_goals
      obtain rfl := some.inj hat
      obtain ⟨rfl, -⟩ := Prod.mk.inj (some.inj hafter)
    · exact .inl fun p hp => absurd hp not_mem_nil
    · refine .inl fun p hp => mem_append_right _ ?_
      obtain ⟨seg, hseg, rfl⟩ := mem_paths.mp hp
      exact of_decide_eq_true (mem_filter.mp hseg).2
    · exact .inl fun p hp => absurd hp not_mem_nil
    · exact .inr ⟨_, rfl⟩
  | commitList | commitUnlink | commitEnd =>
    simp only [commitStep] at h
    split at h
    · obtain rfl := some.inj h
      cases hat
      try cases hafter
    · cases h
  | _ => cases h

theorem Doomed.step [DecidableEq P] {e : Turn D P} (h : s.Doomed) (hstep : s.step digestFile e = some s') :
    s'.Doomed := by
  have hbase := (step_does hstep).onward
  rcases s.step_cases digestFile e with heq | heq | heq | heq
  · exact h.onward hbase (compactStep_commit (heq ▸ hstep))
  · exact h.onward hbase (sealStep_commit (heq ▸ hstep))
  · exact h.onward hbase (prepareStep_aside (heq ▸ hstep)).commit
  · exact commitStep_doomed (heq ▸ hstep)

/-- A record is applied where a commit has come to it. -/
theorem admitted_spec [DecidableEq P] {e : Turn D P} {rec : PendingRewrite P} (h : s.admitted digestFile e = some rec)
    (hstep : s.step digestFile e = some s') :
    rec ∈ s.records ∧ s'.base = s.base.swap rec ∧
      ∃ livePromote, rec.admissible digestFile livePromote s.base.files (s.base.listed rec.table) = true := by
  cases e with
  | commitRecord =>
    simp only [admitted] at h
    split at h
    · rename_i livePromote name rec' left hat
      split at h
      · rename_i hadm
        obtain rfl := some.inj h
        have hswap : s.step digestFile .commitRecord = some { s with
            base := s.base.swap rec'
            commit := some ⟨livePromote, left, some (paths ((s.base.listed rec'.table).filter fun seg =>
              seg.relativePath ∈ rec'.inputs), name)⟩ } := by
          simp only [World.step, commitStep, hat, hadm, if_true]
        obtain rfl := some.inj (hswap.symm.trans hstep)
        exact ⟨mem_records.mpr ⟨name, .inr (by rw [hat]; exact mem_cons_self)⟩, rfl, livePromote, hadm⟩
      · cases h
    · cases h
  | _ => cases h

/-! ## The invariant with restarts -/

/-- Nothing of the writer is under way. -/
structure Quiet (s : World D P) : Prop where
  passes : ∀ call, s.passes call = none
  seals : ∀ call, s.seals call = none
  commit : s.commit = none

theorem quiet_stopped (s : World D P) : s.stopped.Quiet := ⟨fun _ => rfl, fun _ => rfl, rfl⟩

theorem Quiet.aside (h : s.Quiet) (haside : s.Aside s') : s'.Quiet where
  passes call := (congrFun haside.passes call).trans (h.passes call)
  seals call := (congrFun haside.seals call).trans (h.seals call)
  commit := haside.commit.trans h.commit

theorem Inv.stopped (h : s.Inv) : s.stopped.Inv where
  base := h.base
  passes _ _ _ _ hat := nomatch hat
  reclaims _ _ hat := nomatch hat
  seals _ _ hat := nomatch hat
  preparing := h.preparing
  records r hr := h.records r (by
    obtain ⟨name, hor⟩ := mem_records.mp hr
    exact mem_records.mpr ⟨name, .inl (hor.resolve_right not_mem_nil)⟩)
  unique r hr r' hr' heq := by
    have hsub {r : PendingRewrite P} (hr : r ∈ s.stopped.records) : r ∈ s.records := by
      obtain ⟨name, hor⟩ := mem_records.mp hr
      exact mem_records.mpr ⟨name, .inl (hor.resolve_right not_mem_nil)⟩
    exact h.unique r (hsub hr) r' (hsub hr') heq
  finishing _ _ _ hat := nomatch hat

theorem Inv.sweep (h : s.Inv) (hquiet : s.Quiet) {path : Text} (hpath : ∀ t, path ∉ paths (s.base.listed t)) :
    ({ s with base := s.base.sweep path } : World D P).Inv where
  base := h.base.sweep hpath
  passes call _ _ _ hat := by
    rw [hquiet.passes call] at hat
    cases hat
  reclaims call _ hat := by
    rw [hquiet.passes call] at hat
    cases hat
  seals call _ hat := by
    rw [hquiet.seals call] at hat
    cases hat
  preparing := h.preparing
  records r hr := (h.records r hr).sweep path
  unique := h.unique
  finishing _ _ _ hat := by
    rw [hquiet.commit] at hat
    cases hat

/-- The files are unlinked, and the record stays. -/
theorem Inv.keepRecord (h : s.Inv) {livePromote : P} {left : List (Text × Option (PendingRewrite P))}
    {doomed : List Text} {name : Text} (hat : s.commit = some ⟨livePromote, left, some (doomed, name)⟩)
    (refused : Text → Bool) :
    ({ s with base := s.base.discard doomed refused, commit := some ⟨livePromote, left, none⟩ } : World D P).Inv := by
  have hdoomed := h.finishing _ doomed name hat rfl
  have hsub {r : PendingRewrite P}
      (hr : r ∈ ({ s with commit := some ⟨livePromote, left, none⟩ } : World D P).records) : r ∈ s.records := by
    obtain ⟨name', hor⟩ := mem_records.mp hr
    refine mem_records.mpr ⟨name', hor.imp_right fun hleft => ?_⟩
    rw [hat]
    exact hleft
  refine h.records_update (h.base.discard hdoomed refused) (Shelf.discard_frame hdoomed refused)
    (fun _ hp => absurd hp not_mem_nil) h.preparing (fun r hr => ?_)
    (fun r hr r' hr' heq => h.unique r (hsub hr) r' (hsub hr') heq) fun c doomed' name' hcommit hafter => ?_
  · exact (h.records r (hsub hr)).frame (Shelf.discard_frame hdoomed refused) fun _ => not_mem_nil
  · obtain rfl := some.inj hcommit
    cases hafter

/-- An output is left without a record. -/
theorem Inv.abandon (h : s.Inv) {path : Text} (hfresh : s.base.written path = none) (rows : List (TimedRow D))
    (job : ℕ) : ({ s with
      base := s.base.put path .record rows
      preparing := update s.preparing job none } : World D P).Inv := by
  have hframe := Shelf.put_frame hfresh .record rows
  refine h.records_update (h.base.put hfresh .record rows) hframe (fun _ hp => absurd hp not_mem_nil)
    (fun j t group hat => ?_) (fun r hr => (h.records r hr).frame hframe fun _ => not_mem_nil) h.unique
    fun commit doomed name hcommit hafter => ?_
  · rcases of_update hat with ⟨-, hsome⟩ | ⟨-, hat⟩
    · cases hsome
    · exact h.preparing j t group hat
  · exact h.finishing_frame hframe (w := .pass 0) (fun _ hp => absurd hp not_mem_nil)
      (fun heq => nomatch heq) hcommit hafter

end World

namespace Site

/-- What holds in every state of a run. -/
structure Inv (s : Site D P) : Prop where
  world : s.world.Inv
  quiet : s.phase ≠ .up → s.world.Quiet
  referenced : ∀ names, s.phase = .sweeping names → ∀ t, ∀ p ∈ paths (s.world.base.listed t), p ∈ names
  settled : ∀ r ∈ s.applied, (∀ i ∈ r.inputs, i ∈ s.world.base.retired) ∧
    (r.output.relativePath ∈ s.world.base.retired ∨ ∃ t, r.output.relativePath ∈ paths (s.world.base.listed t))
  once : (s.applied.map fun r => r.output.relativePath).Nodup
  doomed : s.world.Doomed

/-- A reconciliation finds the lists as it needs them. -/
def Unmoved (s : Site D P) : Event D P → Prop
  | .turn e => s.world.Unmoved e
  | _ => True

theorem inv_empty : (empty : Site D P).Inv where
  world := .empty
  quiet h := absurd rfl h
  referenced _ h := nomatch h
  settled _ h := absurd h not_mem_nil
  once := nodup_nil
  doomed _ _ _ h := nomatch h

variable {s s' : Site D P}

/-- The world changes, but no list of it. -/
theorem Inv.world_update (h : s.Inv) {w : World D P} (hworld : w.Inv) (hquiet : s.phase ≠ .up → w.Quiet)
    (hretired : w.base.retired = s.world.base.retired) (hlisted : w.base.listed = s.world.base.listed)
    (hdoomed : w.Doomed) : ({ s with world := w } : Site D P).Inv where
  world := hworld
  quiet := hquiet
  referenced names hphase t p hp := h.referenced names hphase t p (hlisted ▸ hp)
  settled r hr := by
    rw [hretired, hlisted]
    exact h.settled r hr
  once := h.once
  doomed := hdoomed

/-- A step of an operation. -/
theorem Inv.turn [DecidableEq P] {digestFile : List (TimedRow D) → ℕ} (h : s.Inv) {e : Turn D P}
    (hmoved : s.world.Unmoved e) (hphase : s.phase = .up ∨ e.ofPreparer = true) {w : World D P}
    (hstep : s.world.step digestFile e = some w) :
    ({ s with world := w, applied := s.applied ++ (s.world.admitted digestFile e).toList } : Site D P).Inv where
  world := h.world.step hmoved hstep
  quiet hdown := (h.quiet hdown).aside (World.step_aside (hphase.resolve_left hdown) hstep)
  referenced names hsweep t p hp := by
    have hdown : s.phase ≠ .up := by
      rw [hsweep]
      exact fun heq => nomatch heq
    rw [(World.step_aside (hphase.resolve_left hdown) hstep).listed] at hp
    exact h.referenced names hsweep t p hp
  settled r hr := by
    have honward := (World.step_does hstep).onward
    rcases mem_append.mp hr with hr | hr
    · obtain ⟨hinputs, houtput⟩ := h.settled r hr
      refine ⟨fun i hi => honward.retired i (hinputs i hi), ?_⟩
      rcases houtput with hretired | ⟨t, hlisted⟩
      · exact .inl (honward.retired _ hretired)
      · exact (honward.listed t _ hlisted).symm.imp_right fun hlisted => ⟨t, hlisted⟩
    · obtain ⟨-, hbase, -⟩ := World.admitted_spec (mem_toList.mp hr) hstep
      rw [hbase]
      refine ⟨fun i hi => mem_append_right _ hi, .inr ⟨r.table, ?_⟩⟩
      have hself : (s.world.base.swap r).listed r.table = r.swap (s.world.base.listed r.table) :=
        update_self r.table _ s.world.base.listed
      rw [hself, PendingRewrite.swap, paths_append]
      exact mem_append_right _ (mem_singleton_self _)
  once := by
    rcases hadm : s.world.admitted digestFile e with _ | rec
    · rw [toList_none, append_nil]
      exact h.once
    · -- its output was neither listed nor retired, so no record of this output was applied
      obtain ⟨hrec, -, livePromote, hadmissible⟩ := World.admitted_spec hadm hstep
      have htransit := (h.world.records rec hrec).transit h.world.base hadmissible
      rw [toList_some, map_append, map_singleton]
      refine h.once.append (nodup_singleton _) fun p hp hmem => ?_
      rw [mem_singleton.mp hmem] at hp
      obtain ⟨r, hr, heq⟩ := mem_map.mp hp
      rcases (h.settled r hr).2 with hretired | ⟨t, hlisted⟩
      · exact htransit.unretired (heq ▸ hretired)
      · exact htransit.unlisted t (heq ▸ hlisted)
  doomed := h.doomed.step hstep

theorem Inv.crash (h : s.Inv) : ({ s with world := s.world.stopped, phase := .down } : Site D P).Inv where
  world := h.world.stopped
  quiet _ := s.world.quiet_stopped
  referenced _ hphase := nomatch hphase
  settled := h.settled
  once := h.once
  doomed _ _ _ hat := nomatch hat

theorem Inv.restart (h : s.Inv) (hphase : s.phase = .down) :
    ({ s with phase := .sweeping s.world.referenced } : Site D P).Inv where
  world := h.world
  quiet _ := h.quiet (by rw [hphase]; exact fun heq => nomatch heq)
  referenced names hsweep t p hp := by
    obtain rfl := Phase.sweeping.inj hsweep
    exact mem_append_left _ (mem_flatMap.mpr ⟨t, Table.mem_all t, hp⟩)
  settled := h.settled
  once := h.once
  doomed := h.doomed

/-- Each event keeps the invariant. -/
theorem Inv.step [DecidableEq P] {digestFile : List (TimedRow D) → ℕ} (h : s.Inv) {e : Event D P}
    (hmoved : s.Unmoved e) (hstep : s.step digestFile e = some s') : s'.Inv := by
  match e with
  | .turn e =>
    simp only [Site.step] at hstep
    split at hstep
    · rename_i hphase
      obtain ⟨w, hw, rfl⟩ := map_eq_some_iff.mp hstep
      exact h.turn hmoved hphase hw
    · cases hstep
  | .keepRecord refused =>
    simp only [Site.step] at hstep
    split at hstep
    · rename_i livePromote left doomed name hphase hat
      obtain rfl := some.inj hstep
      refine h.world_update (h.world.keepRecord hat refused) (fun hdown => absurd hphase hdown) rfl rfl
        fun commit doomed' name' hcommit hafter => ?_
      obtain rfl := some.inj hcommit
      cases hafter
    · cases hstep
  | .abandon job path =>
    simp only [Site.step] at hstep
    repeat' split at hstep
    all_goals try cases hstep
    rename_i hfresh
    refine h.world_update (h.world.abandon hfresh _ job) (fun hdown => (h.quiet hdown).aside ⟨rfl, rfl, rfl, rfl⟩) rfl
      rfl (h.doomed.onward (.of_eq rfl rfl) rfl)
  | .crash =>
    obtain rfl := some.inj hstep
    exact h.crash
  | .restart =>
    simp only [Site.step] at hstep
    split at hstep
    · rename_i hphase
      obtain rfl := some.inj hstep
      exact h.restart hphase
    · cases hstep
  | .sweep path =>
    simp only [Site.step] at hstep
    repeat' split at hstep
    all_goals try cases hstep
    rename_i names hphase hpath
    have hdown : s.phase ≠ .up := by
      rw [hphase]
      exact fun heq => nomatch heq
    have hquiet := h.quiet hdown
    have hunlisted : ∀ t, path ∉ paths (s.world.base.listed t) := fun t hp => hpath (h.referenced names hphase t path hp)
    exact h.world_update (h.world.sweep hquiet hunlisted) (fun _ => hquiet.aside ⟨rfl, rfl, rfl, rfl⟩) rfl rfl
      (h.doomed.onward (.of_eq rfl rfl) rfl)
  | .opened =>
    simp only [Site.step] at hstep
    split at hstep
    · obtain rfl := some.inj hstep
      exact ⟨h.world, fun hdown => absurd rfl hdown, (fun _ hphase => nomatch hphase), h.settled, h.once, h.doomed⟩
    · cases hstep

end Site

/-- **Crashes lose no row**, wherever the effects of the operations and of the sweeps are cut off and however often,
when each compaction reconciles with the lists of its copy: every listed segment has its file; the rows of the listed
segments and those that the retention dropped are the rows that were sealed; no rewrite is applied twice; and the inputs
of one that was applied are never listed again. -/
theorem rows_survive_crashes [DecidableEq P] (digestFile : List (TimedRow D) → ℕ) (es : List (Event D P)) (s : Site D P)
    (hrun : run (Site.step digestFile) .empty es = some s)
    (hmoved : Guarded (Site.step digestFile) Site.Unmoved .empty es) :
    (∀ t, ∀ seg ∈ s.world.base.listed t, (s.world.base.files seg.relativePath).isSome) ∧
      (∀ t, (rowsOf s.world.base.files (s.world.base.listed t) ++ s.world.base.droppedRows t).Perm
        (s.world.base.sealedRows t)) ∧
      (s.applied.map fun r => r.output.relativePath).Nodup ∧
      ∀ r ∈ s.applied, ∀ i ∈ r.inputs, ∀ t, i ∉ paths (s.world.base.listed t) := by
  have hinv : s.Inv := run_induction Site.Inv (fun _ _ _ h hok hstep => h.step hok hstep) Site.inv_empty hmoved hrun
  refine ⟨hinv.world.base.there, fun t => ?_, hinv.once, fun r hr i hi t hlisted => ?_⟩
  · rw [hinv.world.base.rowsOf_files]
    exact hinv.world.base.rows t
  · obtain ⟨seg, hseg, rfl⟩ := mem_paths.mp hlisted
    exact hinv.world.base.live t seg hseg ((hinv.settled r hr).1 _ hi)

/-- The two segments of a day. -/
def twoRefs : List SegmentRef :=
  [writtenRef .logs "logs/d/a".toList [firstRow], writtenRef .logs "logs/d/b".toList [secondRow]]

/-- Two segments are sealed, and a rewrite of them is prepared. -/
def onePrepared : List (Event Unit Unit) :=
  twoSealed.map .turn ++
    [.turn (.prepareRead 0 .logs twoRefs), .turn (.prepareWrite 0 "logs/d/m".toList "m.job".toList () false)]

/-- The writer stops behind the manifest, and again in the sweep. The record is discarded later, its output being listed. -/
def stoppedTwice : List (Event Unit Unit) :=
  onePrepared ++ [.turn (.commitList ()), .turn .commitRecord, .keepRecord fun _ => true, .crash, .restart,
    .sweep "logs/d/a".toList, .crash, .restart, .sweep "logs/d/b".toList, .opened, .turn (.commitList ()),
    .turn .commitRecord, .turn (.commitUnlink fun _ => false), .turn .commitEnd]

theorem rows_survive_crashes_twice : ∃ s, run (Site.step fun _ => 0) .empty stoppedTwice = some s ∧
    paths (s.world.base.listed .logs) = ["logs/d/m".toList] ∧ s.world.pending = [] ∧ s.applied.length = 1 ∧
    (rowsOf s.world.base.files (s.world.base.listed .logs) ++ s.world.base.droppedRows .logs).Perm
      (s.world.base.sealedRows .logs) := by
  have hmoved : Guarded (Site.step fun _ => 0) Site.Unmoved .empty stoppedTwice :=
    ⟨trivial, trivial, trivial, trivial, trivial, trivial, trivial, trivial, trivial, trivial, trivial, trivial, trivial,
      trivial, trivial, trivial, trivial, trivial, trivial, trivial, trivial⟩
  exact ⟨_, rfl, rfl, rfl, rfl, (rows_survive_crashes _ _ _ rfl hmoved).2.1 .logs⟩

/-! ## Outputs that wait -/

section waits

variable {b : Shelf D} {p : Text} (hfile : (b.files p).isSome)
include hfile

theorem Shelf.file_put (hwritten : (b.written p).isSome) {path : Text} (hfresh : b.written path = none) (w : Writer)
    (rows : List (TimedRow D)) : ((b.put path w rows).files p).isSome := by
  rw [(Shelf.put_of_ne (Shelf.ne_fresh hfresh hwritten) w rows).1]
  exact hfile

theorem Shelf.file_discard {doomed : List Text} (hdoomed : p ∉ doomed) (refused : Text → Bool) :
    ((b.discard doomed refused).files p).isSome := by
  have hsame : (b.discard doomed refused).files p = b.files p := unlink_of_not_mem hdoomed
  rw [hsame]
  exact hfile

end waits

namespace World

variable {s s' : World D P}

/-- A commit is about to unlink this file, and no other. -/
def Discarding (s : World D P) (p : Text) : Prop :=
  ∃ commit name, s.commit = some commit ∧ commit.after = some ([p], name)

theorem Doomed.discarding (h : s.Doomed) {p : Text} (hp : p ∉ s.base.retired) {commit : Commit P} {doomed : List Text}
    {name : Text} (hat : s.commit = some commit) (hafter : commit.after = some (doomed, name)) (hmem : p ∈ doomed) :
    s.Discarding p := by
  rcases h commit doomed name hat hafter with hretired | ⟨q, rfl⟩
  · exact absurd (hretired p hmem) hp
  · obtain rfl := mem_singleton.mp hmem
    exact ⟨commit, name, hat, hafter⟩

/-- The file of an output in transit is unlinked where a commit discards it. -/
theorem Inv.does_file (h : s.Inv) (hdoomed : s.Doomed) {p : Text} (htransit : s.base.Transit .record p)
    (hfile : (s.base.files p).isSome) {e : Turn D P} {b : Shelf D} (hdoes : s.Does e b) :
    (b.files p).isSome ∨ (∃ refused, e = .commitUnlink refused) ∧ s.Discarding p := by
  cases hdoes with
  | nothing => exact .inl hfile
  | put _ hfresh => exact .inl (Shelf.file_put hfile htransit.written hfresh _ _)
  | register => exact .inl hfile
  | reconcile => exact .inl hfile
  | @drop _ names hlisted refused =>
    have hnot : p ∉ names := fun hp => (hlisted p hp).elim htransit.unlisted
    have hdropped : ((s.base.drop names).files p).isSome := hfile
    exact .inl (Shelf.file_discard hdropped hnot refused)
  | swap => exact .inl hfile
  | @reclaim _ call doomed hat refused =>
    exact .inl (Shelf.file_discard hfile (fun hp => htransit.unretired (h.reclaims call doomed hat p hp)) refused)
  | @unlink commit doomed name hat hafter refused =>
    by_cases hmem : p ∈ doomed
    · exact .inr ⟨⟨refused, rfl⟩, hdoomed.discarding htransit.unretired hat hafter hmem⟩
    · exact .inl (Shelf.file_discard hfile hmem refused)

end World

/-- **An output that waits is kept**: in every state of a run, while a record is there and its inputs are all listed,
the file of its output is unlinked only where a commit has discarded a record of that output, or by a sweep that does
not have it among the files that were referenced when the writer started. -/
theorem output_waits [DecidableEq P] (digestFile : List (TimedRow D) → ℕ) (es : List (Event D P)) (s : Site D P)
    (hrun : run (Site.step digestFile) .empty es = some s)
    (hmoved : Guarded (Site.step digestFile) Site.Unmoved .empty es) (r : PendingRewrite P)
    (hrecord : r ∈ s.world.records) (hinputs : ∀ i ∈ r.inputs, i ∈ paths (s.world.base.listed r.table))
    (hfile : (s.world.base.files r.output.relativePath).isSome) (e : Event D P) (s' : Site D P)
    (hstep : s.step digestFile e = some s') :
    (s'.world.base.files r.output.relativePath).isSome ∨
      ((∃ refused, e = .turn (.commitUnlink refused) ∨ e = .keepRecord refused) ∧
        s.world.Discarding r.output.relativePath) ∨
      e = .sweep r.output.relativePath ∧ ∃ names, s.phase = .sweeping names ∧ r.output.relativePath ∉ names := by
  have hinv : s.Inv := run_induction Site.Inv (fun _ _ _ h hok hstep => h.step hok hstep) Site.inv_empty hmoved hrun
  have htransit : s.world.base.Transit .record r.output.relativePath := by
    rcases (hinv.world.records r hrecord).output with htransit | ⟨⟨i, hi, hretired⟩, -⟩
    · exact htransit
    · obtain ⟨seg, hseg, rfl⟩ := mem_paths.mp (hinputs i hi)
      exact absurd hretired (hinv.world.base.live _ seg hseg)
  match e with
  | .turn e =>
    simp only [Site.step] at hstep
    split at hstep
    · obtain ⟨w, hw, rfl⟩ := map_eq_some_iff.mp hstep
      rcases hinv.world.does_file hinv.doomed htransit hfile (World.step_does hw) with hkept | ⟨⟨refused, rfl⟩, hdiscarding⟩
      · exact .inl hkept
      · exact .inr (.inl ⟨⟨refused, .inl rfl⟩, hdiscarding⟩)
    · cases hstep
  | .keepRecord refused =>
    simp only [Site.step] at hstep
    split at hstep
    · rename_i livePromote left doomed name hphase hat
      obtain rfl := some.inj hstep
      by_cases hmem : r.output.relativePath ∈ doomed
      · exact .inr (.inl ⟨⟨refused, .inr rfl⟩, hinv.doomed.discarding htransit.unretired hat rfl hmem⟩)
      · exact .inl (Shelf.file_discard hfile hmem refused)
    · cases hstep
  | .abandon job path =>
    simp only [Site.step] at hstep
    repeat' split at hstep
    all_goals try cases hstep
    exact .inl (Shelf.file_put hfile htransit.written (by assumption) _ _)
  | .crash =>
    obtain rfl := some.inj hstep
    exact .inl hfile
  | .restart | .opened =>
    simp only [Site.step] at hstep
    split at hstep
    · obtain rfl := some.inj hstep
      exact .inl hfile
    · cases hstep
  | .sweep path =>
    simp only [Site.step] at hstep
    repeat' split at hstep
    all_goals try cases hstep
    rename_i names hphase hpath
    by_cases heq : r.output.relativePath = path
    · exact .inr (.inr ⟨by rw [heq], names, hphase, heq ▸ hpath⟩)
    · have hsame : (s.world.base.sweep path).files r.output.relativePath = s.world.base.files r.output.relativePath :=
        update_of_ne heq _ s.world.base.files
      exact .inl (hsame ▸ hfile)

/-- The record that was prepared. -/
def oneRecord : PendingRewrite Unit where
  table := .logs
  inputs := ["logs/d/a".toList, "logs/d/b".toList]
  output := mergedRef "logs/d/m".toList twoRefs (concatAndSort [firstRow, secondRow])
  outputDigest := 0
  promote := ()

theorem exists_onePrepared : ∃ s, run (Site.step fun _ => 0) .empty onePrepared = some s ∧ oneRecord ∈ s.world.records ∧
    paths (s.world.base.listed .logs) = oneRecord.inputs ∧
    (s.world.base.files oneRecord.output.relativePath).isSome :=
  ⟨_, rfl, mem_singleton_self _, rfl, rfl⟩

theorem output_waits_crash : ∃ s s', run (Site.step fun _ => 0) .empty onePrepared = some s ∧
    s.step (fun _ => 0) .crash = some s' ∧ (s'.world.base.files oneRecord.output.relativePath).isSome := by
  have hmoved : Guarded (Site.step fun _ => 0) Site.Unmoved .empty onePrepared :=
    ⟨trivial, trivial, trivial, trivial, trivial, trivial, trivial⟩
  obtain ⟨s, hrun, hrecord, hinputs, hfile⟩ := exists_onePrepared
  refine ⟨s, _, hrun, rfl, ?_⟩
  rcases output_waits (fun _ => 0) onePrepared s hrun hmoved oneRecord hrecord (fun i hi => hinputs.symm ▸ hi) hfile
    .crash _ rfl with hkept | ⟨⟨refused, heq | heq⟩, -⟩ | ⟨heq, -⟩
  · exact hkept
  · cases heq
  · cases heq
  · cases heq

end Imbh.Segments
