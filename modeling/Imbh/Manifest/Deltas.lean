import Imbh.Lib.Checked
import Imbh.Lib.Split
import Imbh.Manifest.Files

/-!
# Deltas as they are written

The difference of two manifests goes through its text, is read back and applied to the old one. A segment is
known by its path: what is listed under one path before and after is taken for the same segment.

* `delta_exact` — deltas are exact for segments that keep their metadata, and a checkpoint changes no replay.
-/

namespace Imbh.ManifestLog

open Lib List
open Storage (Table)

/-! ## What is read -/

/-- A line that is read adds a path that can be written. -/
theorem decodeLine_added {i : ℕ} {line : Text} {e e' : Edit} (hline : '\n' ∉ line)
    (he : ∀ a ∈ e.added, FieldOk a.2.relativePath) (h : decodeLine i line e = .ok e') :
    ∀ a ∈ e'.added, FieldOk a.2.relativePath := by
  have hfield {p : List Text} {x f : Text} (hf : fields line = x :: p) (hp : p[1]? = some f) : FieldOk f := by
    have hmem : f ∈ line.splitOn '\t' := by
      show f ∈ fields line
      rw [hf]
      exact mem_cons_of_mem _ (mem_of_getElem? hp)
    exact ⟨not_mem_of_mem_splitOn hmem, fun hc => hline (mem_of_mem_splitOn hmem hc)⟩
  have hok {α : Type} {what : String} {o : Option α} {x : α} (ho : orCorrupt i what o = .ok x) : o = some x := by
    cases o with
    | none => cases ho
    | some y =>
      cases ho
      rfl
  unfold decodeLine at h
  split at h
  · cases h
    exact he
  split at h
  · cases h
    exact he
  · obtain ⟨w, -, h⟩ := bind_eq_ok.mp h
    cases h
    exact he
  · rename_i p hf
    obtain ⟨table, -, h⟩ := bind_eq_ok.mp h
    obtain ⟨path, hpath, h⟩ := bind_eq_ok.mp h
    obtain ⟨min, -, h⟩ := bind_eq_ok.mp h
    obtain ⟨max, -, h⟩ := bind_eq_ok.mp h
    obtain ⟨rows, -, h⟩ := bind_eq_ok.mp h
    cases h
    intro a ha
    rcases mem_append.mp ha with ha | ha
    · exact he a ha
    · rw [mem_singleton.mp ha]
      exact hfield hf (hok hpath)
  · obtain ⟨table, -, h⟩ := bind_eq_ok.mp h
    obtain ⟨path, -, h⟩ := bind_eq_ok.mp h
    cases h
    exact he
  · cases h

/-- So do all lines. -/
theorem decodeLines_paths {ls : List Text} (hls : ∀ l ∈ ls, '\n' ∉ l) {i : ℕ} {e e' : Edit}
    (he : ∀ a ∈ e.added, FieldOk a.2.relativePath) (h : decodeLines i ls e = .ok e') :
    ∀ a ∈ e'.added, FieldOk a.2.relativePath := by
  induction ls generalizing i e with
  | nil =>
    cases h
    exact he
  | cons l ls ih =>
    obtain ⟨next, hnext, h⟩ := bind_eq_ok.mp h
    exact ih (fun x hx => hls x (mem_cons_of_mem _ hx))
      (decodeLine_added (hls l mem_cons_self) he hnext) h

/-- The paths of an edit that was read hold no tab and no line end. -/
theorem decodeEdit_added {payload : Bytes} {e : Edit} (h : decodeEdit payload = .ok e) :
    ∀ a ∈ e.added, FieldOk a.2.relativePath := by
  unfold decodeEdit at h
  split at h
  · cases h
  · exact decodeLines_paths (fun l hl => not_mem_of_mem_lines hl) (fun a ha => absurd ha not_mem_nil) h

namespace Manifest

/-- The paths of a manifest can be written in the middle of a line. -/
def Writable (m : Manifest) : Prop := ∀ t, ∀ s ∈ m.segments t, FieldOk s.relativePath

/-- An edit with such paths keeps the manifest writable. -/
theorem Writable.applyEdit {m : Manifest} (h : m.Writable) {e : Edit}
    (he : ∀ a ∈ e.added, FieldOk a.2.relativePath) : (m.applyEdit e).Writable := by
  intro t s hs
  rw [applyEdit_segments] at hs
  rcases mem_append.mp hs with hs | hs
  · have hs := mem_of_mem_filter hs
    split at hs
    · cases hs
    · exact h t s hs
  · obtain ⟨a, ha, rfl⟩ := mem_map.mp hs
    exact he a (mem_of_mem_filter ha)

/-- A replay does. -/
theorem Writable.replay {payloads : List Bytes} {m m' : Manifest} (h : m.Writable)
    (hreplay : replayPayloads payloads m = .ok m') : m'.Writable := by
  induction payloads generalizing m with
  | nil =>
    cases hreplay
    exact h
  | cons payload rest ih =>
    rw [replayPayloads] at hreplay
    split at hreplay
    · cases hreplay
    · rename_i e he
      exact ih (h.applyEdit (decodeEdit_added he)) hreplay

theorem replayPayloads_append (before after : List Bytes) (m : Manifest) :
    replayPayloads (before ++ after) m = replayPayloads before m >>= replayPayloads after := by
  induction before generalizing m with
  | nil => rfl
  | cons payload rest ih =>
    rw [cons_append, replayPayloads, replayPayloads]
    split
    · rfl
    · exact ih _

/-- A checkpoint of what was replayed is read back. -/
theorem Writable.checkpoint {m : Manifest} (h : m.Writable) :
    decodeEdit (encodeEdit (checkpointEdit m)) = .ok (checkpointEdit m) := by
  refine decodeEdit_of_writable ⟨fun r hr => absurd hr not_mem_nil, fun a ha => ?_⟩
  obtain ⟨t, -, ha⟩ := mem_flatMap.mp ha
  obtain ⟨s, hs, rfl⟩ := mem_map.mp ha
  exact h t s hs

/-! ## The same segments -/

/-- No table lists a path twice. -/
def Distinct (m : Manifest) : Prop := ∀ t, (paths (m.segments t)).Nodup

/-- What both list under one path is the same segment. -/
def Agree (old new : Manifest) : Prop :=
  ∀ t, ∀ s ∈ old.segments t, ∀ s' ∈ new.segments t, s.relativePath = s'.relativePath → s = s'

/-- Some segments of the old manifest in their order, and others behind them. -/
def Extends (old new : Manifest) : Prop :=
  ∀ t, ∃ kept fresh, kept.Sublist (old.segments t) ∧ new.segments t = kept ++ fresh ∧
    ∀ s ∈ fresh, s.relativePath ∉ paths (old.segments t)

/-- Of a list without duplicates, a sublist is what a filter leaves. -/
theorem filter_mem_of_sublist {α : Type} [DecidableEq α] {kept l : List α} (h : kept.Sublist l) (hl : l.Nodup) :
    l.filter (· ∈ kept) = kept := by
  have hsub : (l.filter (· ∈ kept)).Sublist l := filter_sublist
  have hperm : (l.filter (· ∈ kept)).Perm kept := by
    rw [perm_ext_iff_of_nodup (hsub.nodup hl) (h.nodup hl)]
    intro x
    simp only [mem_filter, decide_eq_true_eq]
    exact ⟨And.right, fun hx => ⟨h.subset hx, hx⟩⟩
  have hkept : kept.Sublist (l.filter (· ∈ kept)) := by
    have := h.filter (· ∈ kept)
    rwa [filter_eq_self.mpr fun x hx => by simpa using hx] at this
  exact (hkept.eq_of_length hperm.length_eq.symm).symm

theorem Extends.retained {old new : Manifest} (h : Extends old new) (hold : old.Distinct) : Retained old new := by
  choose kept fresh hkept hnew hfresh using h
  refine retained_of_append (fun t s => s ∈ kept t) fresh hold hfresh fun t => ?_
  rw [hnew t, filter_mem_of_sublist (hkept t) (Nodup.of_map _ (hold t))]

/-- The delta leads to the new lists up to their order, if and only if the manifests agree on the segments that both
have. -/
theorem perm_iff_agree {old new : Manifest} (hold : old.Distinct) (hnew : new.Distinct) :
    (∀ t, ((old.applyEdit (diff old new)).segments t).Perm (new.segments t)) ↔ Agree old new := by
  constructor
  · intro hperm t s hs s' hs' hpath
    have hkept : s ∈ (old.applyEdit (diff old new)).segments t := by
      rw [applyEdit_diff_segments, mem_append, mem_filter]
      refine .inl ⟨hs, decide_eq_true ?_⟩
      rw [hpath]
      exact mem_map_of_mem hs'
    exact inj_on_of_nodup_map (hnew t) ((hperm t).mem_iff.mp hkept) hs' hpath
  · intro hagree t
    have hcommon : ((old.segments t).filter (·.relativePath ∈ paths (new.segments t))).Perm
        ((new.segments t).filter (·.relativePath ∈ paths (old.segments t))) := by
      rw [perm_ext_iff_of_nodup ((Nodup.of_map _ (hold t)).filter _) ((Nodup.of_map _ (hnew t)).filter _)]
      intro s
      simp only [mem_filter, decide_eq_true_eq, paths, mem_map]
      constructor
      · rintro ⟨hs, s', hs', hpath⟩
        obtain rfl := hagree t s hs s' hs' hpath.symm
        exact ⟨hs', s, hs, rfl⟩
      · rintro ⟨hs, s', hs', hpath⟩
        obtain rfl := hagree t s' hs' s hs hpath
        exact ⟨hs', s', hs, rfl⟩
    rw [applyEdit_diff_segments]
    refine (hcommon.append_right _).trans ?_
    have hsplit := filter_append_perm (fun s : SegmentRef => s.relativePath ∈ paths (old.segments t)) (new.segments t)
    simpa using hsplit

end Manifest

/-- A delta whose paths can be written comes to the new manifest exactly if the segments of both have kept their
metadata, and to its order if the new ones stand behind the others; and a checkpoint of what was replayed can stand
for all that is before it. -/
theorem delta_exact :
    (∀ old new : Manifest, old.Distinct → new.Distinct → (Manifest.diff old new).Writable →
      ∃ e, decodeEdit (encodeEdit (Manifest.diff old new)) = .ok e ∧
        (old.applyEdit e).watermark = new.watermark ∧
        ((∀ t, ((old.applyEdit e).segments t).Perm (new.segments t)) ↔ Manifest.Agree old new) ∧
        (Manifest.Extends old new → old.applyEdit e = new)) ∧
    ∀ before after : List Bytes, ∀ m, replayPayloads before {} = .ok m →
      replayPayloads (encodeEdit (Manifest.checkpointEdit m) :: after) {} = replayPayloads (before ++ after) {} := by
  refine ⟨fun old new hold hnew hwritable => ?_, fun before after m hm => ?_⟩
  · exact ⟨Manifest.diff old new, decodeEdit_of_writable hwritable,
      Manifest.applyEdit_diff_watermark old new, Manifest.perm_iff_agree hold hnew,
      fun h => (Manifest.applyEdit_diff_iff old new).mpr (h.retained hold)⟩
  · have hwritable : m.Writable := Manifest.Writable.replay (fun t s hs => absurd hs not_mem_nil) hm
    rw [Manifest.replayPayloads_append, hm, replayPayloads, hwritable.checkpoint]
    show replayPayloads after (Manifest.applyEdit {} (Manifest.checkpointEdit m)) = replayPayloads after m
    rw [Manifest.applyEdit_checkpointEdit]

/-- A manifest of one segment of logs. -/
def single (path : Text) (rows : UInt64) : Manifest where
  segments := fun t => if t = .logs then [⟨path, 0, 0, rows⟩] else []

/-- Two segments. -/
def twoLogs : Manifest where
  segments := fun t => if t = .logs then [⟨"logs/a".toList, 10, 20, 2⟩, ⟨"logs/b".toList, 15, 30, 1⟩] else []
  watermark := 3

/-- The first of them is gone, and another was sealed. -/
def replacedLogs : Manifest where
  segments := fun t => if t = .logs then [⟨"logs/b".toList, 15, 30, 1⟩, ⟨"logs/c".toList, -5, 40, 3⟩] else []
  watermark := 6

/-- A delta that keeps a segment, removes one and adds one; and it is replayed after a checkpoint as it is after what
the checkpoint stands for. -/
theorem delta_exact_replaced :
    (∃ e, decodeEdit (encodeEdit (Manifest.diff twoLogs replacedLogs)) = .ok e ∧
        twoLogs.applyEdit e = replacedLogs) ∧
      replayPayloads [encodeEdit (Manifest.checkpointEdit twoLogs), encodeEdit (Manifest.diff twoLogs replacedLogs)]
        {} = .ok replacedLogs := by
  have htwo : twoLogs.Distinct := fun t => by cases t <;> decide
  obtain ⟨first, hfirst, -, -, hsealed⟩ := delta_exact.1 {} twoLogs (fun _ => nodup_nil) htwo
    ⟨by decide, by decide⟩
  obtain ⟨e, he, -, -, hextends⟩ := delta_exact.1 twoLogs replacedLogs htwo (fun t => by cases t <;> decide)
    ⟨by decide, by decide⟩
  have hnew : twoLogs.applyEdit e = replacedLogs := by
    refine hextends fun t => ?_
    cases t
    case logs => exact ⟨[⟨"logs/b".toList, 15, 30, 1⟩], [⟨"logs/c".toList, -5, 40, 3⟩], by decide, rfl, by decide⟩
    all_goals exact ⟨[], [], nil_sublist _, rfl, fun s hs => absurd hs not_mem_nil⟩
  have hold : replayPayloads [encodeEdit (Manifest.diff {} twoLogs)] {} = .ok twoLogs := by
    simp only [replayPayloads, hfirst]
    rw [hsealed fun t => ⟨[], _, Sublist.refl [], rfl, fun s _ => not_mem_nil⟩]
  refine ⟨⟨e, he, hnew⟩, ?_⟩
  rw [delta_exact.2 _ [encodeEdit (Manifest.diff twoLogs replacedLogs)] twoLogs hold, Manifest.replayPayloads_append,
    hold]
  simp only [replayPayloads, he]
  exact congrArg Except.ok hnew

/-- A segment that is listed again with other metadata keeps the old one, and a path with a tab, or with a line end,
or one that ends in a carriage return and is removed, is not read back. -/
theorem delta_slips :
    (∀ e, decodeEdit (encodeEdit (Manifest.diff (single ['a'] 1) (single ['a'] 2))) = .ok e →
      ¬ (((single ['a'] 1).applyEdit e).segments .logs).Perm ((single ['a'] 2).segments .logs)) ∧
    decodeEdit (encodeEdit (Manifest.diff {} (single ['a', '\t'] 1))) =
      .error (.corruptManifest (some 1) "invalid add: min_time".toList) ∧
    decodeEdit (encodeEdit (Manifest.diff {} (single ['a', '\n'] 1))) =
      .error (.corruptManifest (some 1) "invalid add: min_time".toList) ∧
    (∀ e, decodeEdit (encodeEdit (Manifest.diff (single ['a', '\r'] 1) {})) = .ok e →
      ((single ['a', '\r'] 1).applyEdit e).segments .logs = (single ['a', '\r'] 1).segments .logs) := by
  have hread (e : Edit) (ls : List Text) (hls : lines (unlines (headLines e ++ e.removed.map removedLine ++
      e.added.map addedLine)) = ls) : decodeEdit (encodeEdit e) = decodeLines 0 ls {} := by
    have hdecode : decodeText (encodeEdit e) = some (unlines
        (headLines e ++ e.removed.map removedLine ++ e.added.map addedLine)) := decodeText_encodeText _
    unfold decodeEdit
    rw [hdecode, ← hls]
  refine ⟨fun e he => ?_, ?_, ?_, fun e he => ?_⟩
  · rw [hread _ [] (by decide)] at he
    cases he
    decide
  · rw [hread _ [unfields [['+'], "logs".toList, ['a', '\t'], ['0'], ['0'], ['1']]] (by decide)]
    rfl
  · rw [hread _ [unfields [['+'], "logs".toList, ['a']], unfields [[], ['0'], ['0'], ['1']]] (by decide)]
    rfl
  · rw [hread _ [unfields [['-'], "logs".toList, ['a']]] (by decide)] at he
    have hedit : e = { removed := [(.logs, ['a'])] } := by
      have heq : decodeLines 0 [unfields [['-'], "logs".toList, ['a']]] {} =
          .ok { removed := [(.logs, ['a'])] } := by rfl
      rw [heq] at he
      cases he
      rfl
    rw [hedit]
    decide

end Imbh.ManifestLog
