import Imbh.Attrstats.SampledMap
import Imbh.Core.Canonical
import Imbh.Lib.Ordinals

/-!
# The accumulators of a scan unit (`accum.rs`)

A unit counts, for each key and each value of it, in how many segments and in how many windows of each width they
were. Keys and values are in sketches, by the hash of their name, and a value keeps the ordinal of the segment and of
the windows in which it was last seen. An ordinal that is `none` is the source's `NO_SEG`. Counters are numbers: the
source has 32 bits for segments and windows, of which there are fewer than 2^32 - 1, and 64 bits for rows.

* `ladder_exact` — the counts are those of the distinct segments and windows.
-/

namespace Imbh.Attrstats

open Lib Imbh.Core List Function

/-- Source: `accum.rs` `AttrScope` -/
inductive AttrScope
  | attributes
  | resource
  | scope
  deriving DecidableEq, Inhabited

/-- Source: `accum.rs` `AttrScope::prefix` -/
def AttrScope.keyPrefix : AttrScope → Text
  | .attributes => []
  | .resource => "resource:".toList
  | .scope => "scope:".toList

/-- The windows of one width in which a value was. -/
structure ValueLevel where
  windows : ℕ
  lastWindow : Option ℕ
  deriving DecidableEq, Inhabited

/-- Source: `accum.rs` `ValueAcc` -/
structure ValueAcc where
  segments : ℕ
  lastSeg : Option ℕ
  levels : List ValueLevel
  deriving DecidableEq, Inhabited

/-- What is kept of a key. Its values are in a `SampledMap`, or in a dictionary where nothing is dropped.
Source: `accum.rs` `KeyAcc` -/
structure KeyAcc (M : Type) where
  name : Text
  scope : AttrScope
  rowsPresent : ℕ
  rowsString : ℕ
  strLenSum : ℕ
  strLenMax : ℕ
  segmentsPresent : ℕ
  lastSeg : Option ℕ
  runs : ℕ
  values : M
  deriving DecidableEq, Inhabited

/-- The windows of one width: how many were opened, and the one that is open. -/
structure Level where
  width : ℤ
  windows : ℕ
  curWindowId : ℤ
  curWindow : Option ℕ
  deriving DecidableEq, Inhabited

/-- Source: `accum.rs` `Acc` -/
structure Acc (κ : Type) where
  segments : ℕ
  rows : ℕ
  keys : SampledMap κ (KeyAcc (SampledMap κ ValueAcc))
  valueCap : ℕ
  curSeg : Option ℕ
  levels : List Level
  minTime : ℤ
  maxTime : ℤ
  deriving DecidableEq

/-- A key's pair in some rows of a segment, with the text of its value. -/
structure Observation where
  scope : AttrScope
  name : Text
  value : AnyValue
  text : Text
  count : ℕ
  newRun : Bool

/-- Source: `accum.rs` `Acc::begin_segment`, at one level -/
def Level.beginSegment (level : Level) (minTime : ℤ) : Level :=
  let id := minTime / max level.width 1
  if level.curWindow = none ∨ id ≠ level.curWindowId then
    { level with
      curWindowId := id
      curWindow := some level.windows
      windows := level.windows + 1 }
  else level

/-- Source: `accum.rs` `Acc::observe`, at one level of a value -/
def ValueLevel.touch (level : ValueLevel) (open_ : Option ℕ) : ValueLevel :=
  if level.lastWindow ≠ open_ then
    { lastWindow := open_
      windows := level.windows + 1 }
  else level

/-- Source: `accum.rs` `Acc::observe`, at a value -/
def ValueAcc.observe (seg : Option ℕ) (curWindow : List (Option ℕ)) (v : ValueAcc) : ValueAcc where
  segments := if v.lastSeg ≠ seg then v.segments + 1 else v.segments
  lastSeg := seg
  levels := List.zipWith ValueLevel.touch v.levels curWindow

/-- Source: `accum.rs` `Acc::observe`, a value that is new -/
def ValueAcc.new (levels : ℕ) : ValueAcc := ⟨0, none, List.replicate levels ⟨0, none⟩⟩

/-- Source: `accum.rs` `KeyAcc::new` -/
def KeyAcc.new {M : Type} (name : Text) (attrScope : AttrScope) (values : M) : KeyAcc M where
  name := name
  scope := attrScope
  rowsPresent := 0
  rowsString := 0
  strLenSum := 0
  strLenMax := 0
  segmentsPresent := 0
  lastSeg := none
  runs := 0
  values := values

/-- The length of a string in bytes, as a `u32`. -/
def strLen (s : Text) : ℕ := (encodeText s).length % 2 ^ 32

/-- What is done at a key, of which the values are changed by `record`.
Source: `accum.rs` `Acc::observe` -/
def KeyAcc.observe {M : Type} (seg : Option ℕ) (o : Observation) (record : M → M) (key : KeyAcc M) : KeyAcc M where
  name := key.name
  scope := key.scope
  rowsPresent := key.rowsPresent + o.count
  rowsString :=
    match o.value with
    | .str _ => key.rowsString + o.count
    | _ => key.rowsString
  strLenSum :=
    match o.value with
    | .str s => key.strLenSum + strLen s * o.count
    | _ => key.strLenSum
  strLenMax :=
    match o.value with
    | .str s => max key.strLenMax (strLen s)
    | _ => key.strLenMax
  segmentsPresent := if key.lastSeg ≠ seg then key.segmentsPresent + 1 else key.segmentsPresent
  lastSeg := seg
  runs := if o.newRun then key.runs + 1 else key.runs
  values := record key.values

section

variable {κ : Type} [LinearOrder κ] [OrderTop κ]

instance {V : Type} : Inhabited (SampledMap κ V) := ⟨.new 0⟩

-- The hash of a name, which is a third-party function.
variable (hash : Text → κ)

/-- Source: `accum.rs` `Acc::observe`, at the values of the key -/
def observeValue (seg : Option ℕ) (curWindow : List (Option ℕ)) (text : Text) (values : SampledMap κ ValueAcc) :
    SampledMap κ ValueAcc :=
  values.observe (hash text) (.new curWindow.length) (ValueAcc.observe seg curWindow)

namespace Acc

/-- Source: `accum.rs` `Acc::new` -/
def new (keyCap valueCap : ℕ) (widths : List ℤ) : Acc κ where
  segments := 0
  rows := 0
  keys := .new keyCap
  valueCap := valueCap
  curSeg := none
  levels := widths.map fun width => ⟨width, 0, 0, none⟩
  minTime := 2 ^ 63 - 1
  maxTime := -2 ^ 63

/-- Source: `accum.rs` `Acc::begin_segment` -/
def beginSegment (acc : Acc κ) (minTime maxTime : ℤ) : Acc κ :=
  { acc with
    curSeg := some acc.segments
    segments := acc.segments + 1
    minTime := min acc.minTime minTime
    maxTime := max acc.maxTime maxTime
    levels := acc.levels.map (Level.beginSegment · minTime) }

/-- Source: `accum.rs` `Acc::add_rows` -/
def addRows (acc : Acc κ) (n : ℕ) : Acc κ := { acc with rows := acc.rows + n }

/-- Source: `accum.rs` `Acc::observe` -/
def observe (acc : Acc κ) (o : Observation) : Acc κ :=
  { acc with
    keys := acc.keys.observe (hash o.name) (.new o.name o.scope (.new acc.valueCap))
      (KeyAcc.observe acc.curSeg o (observeValue hash acc.curSeg (acc.levels.map Level.curWindow) o.text)) }

end Acc

/-! ## Runs -/

/-- A call of a scan within a segment. -/
inductive ScanStep
  | addRows (n : ℕ)
  | observe (o : Observation)

/-- A segment that is fed to a unit: its times, and the calls of its scan. -/
structure Segment where
  minTime : ℤ
  maxTime : ℤ
  steps : List ScanStep

def Acc.step (acc : Acc κ) : ScanStep → Acc κ
  | .addRows n => acc.addRows n
  | .observe o => acc.observe hash o

/-- A segment is begun and scanned.
Source: `lib.rs` `analyze` -/
def Acc.scan (acc : Acc κ) (seg : Segment) : Acc κ :=
  seg.steps.foldl (Acc.step hash) (acc.beginSegment seg.minTime seg.maxTime)

def Acc.scanAll (acc : Acc κ) (run : List Segment) : Acc κ := run.foldl (Acc.scan hash) acc

end

/-! ## What has been counted -/

/-- Some segments of a run, by their number, and their times. -/
structure Visits where
  segments : Finset ℕ
  times : Finset ℤ

namespace Visits

def insert (visits : Visits) (i : ℕ) (t : ℤ) : Visits := ⟨Insert.insert i visits.segments, Insert.insert t visits.times⟩

/-- The windows of a width in which the segments begin. -/
def windows (visits : Visits) (width : ℤ) : Finset ℤ := visits.times.image (· / max width 1)

theorem windows_insert (visits : Visits) (i : ℕ) (t width : ℤ) :
    (visits.insert i t).windows width = Insert.insert (t / max width 1) (visits.windows width) := Finset.image_insert _ _ _

/-- The segment comes last, in number and in time. -/
structure Last (visits : Visits) (i : ℕ) (t : ℤ) : Prop where
  segment : ∀ x ∈ visits.segments, x ≤ i
  time : ∀ x ∈ visits.times, x ≤ t

/-- The segment is the last of them. -/
structure Current (visits : Visits) (i : ℕ) (t : ℤ) : Prop extends visits.Last i t where
  segment_mem : i ∈ visits.segments
  time_mem : t ∈ visits.times

theorem Last.window {visits : Visits} {i : ℕ} {t : ℤ} (h : visits.Last i t) (width : ℤ) :
    ∀ x ∈ visits.windows width, x ≤ t / max width 1 := by
  intro x hx
  obtain ⟨time, htime, rfl⟩ := Finset.mem_image.mp hx
  exact Int.ediv_le_ediv (lt_max_of_lt_right one_pos) (h.time time htime)

theorem Last.insert {visits : Visits} {i : ℕ} {t : ℤ} (h : visits.Last i t) : (visits.insert i t).Current i t where
  segment x hx := (Finset.mem_insert.mp hx).elim (fun heq => heq.le) (h.segment x)
  time x hx := (Finset.mem_insert.mp hx).elim (fun heq => heq.le) (h.time x)
  segment_mem := Finset.mem_insert_self i _
  time_mem := Finset.mem_insert_self t _

theorem Current.window_mem {visits : Visits} {i : ℕ} {t : ℤ} (h : visits.Current i t) (width : ℤ) :
    t / max width 1 ∈ visits.windows width := Finset.mem_image_of_mem _ h.time_mem

end Visits

/-- A value has counted some of the segments that were begun. -/
structure ValueAcc.Exact (widths : List ℤ) (opened marks : Visits) (v : ValueAcc) : Prop where
  segments : Marked opened.segments marks.segments v.segments v.lastSeg
  levels : List.Forall₂ (fun width (level : ValueLevel) =>
    Marked (opened.windows width) (marks.windows width) level.windows level.lastWindow) widths v.levels

/-- A level has counted all windows, and the last one is open. -/
structure Level.Exact (opened : Visits) (width : ℤ) (level : Level) : Prop where
  width_eq : level.width = width
  windows : Marked (opened.windows width) (opened.windows width) level.windows level.curWindow
  current : (opened.windows width).Nonempty → level.curWindowId ∈ opened.windows width ∧
    ∀ x ∈ opened.windows width, x ≤ level.curWindowId

section

variable {κ : Type} [LinearOrder κ] [OrderTop κ] (hash : Text → κ) {keyCap valueCap : ℕ} {widths : List ℤ} {opened : Visits}

/-- Every value of a key has counted what is known of its hash, and those that were observed are known. A value that
was not has counted nothing. -/
def KeyAcc.Exact (valueCap : ℕ) (widths : List ℤ) (opened : Visits) (marks : κ → Visits)
    (key : KeyAcc (SampledMap κ ValueAcc)) : Prop :=
  ∃ dict, Views (max valueCap 1) dict key.values ∧
    (∀ h, ((dict h).getD (.new widths.length)).Exact widths opened (marks h)) ∧
    ∀ h, (dict h).isSome ↔ (marks h).segments.Nonempty

/-- What the unit has counted of the segments and the observations so far. -/
structure Acc.Exact (keyCap valueCap : ℕ) (widths : List ℤ) (opened : Visits) (marks : κ → κ → Visits) (acc : Acc κ) : Prop where
  segments : opened.segments = Finset.range acc.segments
  marked : Marked opened.segments opened.segments acc.segments acc.curSeg
  levels : List.Forall₂ (Level.Exact opened) widths acc.levels
  valueCap_eq : acc.valueCap = valueCap
  keys : ∃ dict, Views (max keyCap 1) dict acc.keys ∧
    (∀ k, ((dict k).getD (.new [] .attributes (.new valueCap))).Exact valueCap widths opened (marks k)) ∧
    ∀ k, (dict k).isSome ↔ ∃ h, (marks k h).segments.Nonempty

end

/-! ### A segment is begun -/

theorem ValueAcc.exact_new (widths : List ℤ) (opened : Visits) : (ValueAcc.new widths.length).Exact widths opened ⟨∅, ∅⟩ where
  segments := .start _
  levels := by
    rw [ValueAcc.new]
    induction widths with
    | nil => exact .nil
    | cons width widths ih => exact .cons (.start _) ih

theorem ValueAcc.Exact.begin {widths : List ℤ} {opened marks : Visits} {v : ValueAcc} {i : ℕ} {t : ℤ}
    (h : v.Exact widths opened marks) (hlast : opened.Last i t) : v.Exact widths (opened.insert i t) marks where
  segments := h.segments.visit hlast.segment
  levels := h.levels.imp fun width level hlevel => by
    rw [Visits.windows_insert]
    exact hlevel.visit (hlast.window width)

/-- A level that counts exactly goes on to do so in the next segment. -/
theorem Level.Exact.begin {opened : Visits} {width : ℤ} {level : Level} {i : ℕ} {t : ℤ}
    (h : level.Exact opened width) (hlast : opened.Last i t) : (level.beginSegment t).Exact (opened.insert i t) width := by
  obtain ⟨hwidth, hwindows, hcurrent⟩ := h
  have hbelow := hlast.window width
  unfold Level.beginSegment
  rw [hwidth]
  by_cases hknown : t / max width 1 ∈ opened.windows width
  · -- the window of the last segment is still open
    obtain ⟨hmem, hmax⟩ := hcurrent ⟨_, hknown⟩
    have hopen : level.curWindow ≠ none := fun hnone =>
      Finset.ne_empty_of_mem hknown (hwindows.last_eq_none_iff.mp hnone)
    have hsame : t / max width 1 = level.curWindowId := le_antisymm (hmax _ hknown) (hbelow _ hmem)
    rw [if_neg (by simp [hopen, hsame])]
    refine ⟨hwidth, ?_, ?_⟩
    · rw [Visits.windows_insert, Finset.insert_eq_of_mem hknown]
      exact hwindows
    · rw [Visits.windows_insert, Finset.insert_eq_of_mem hknown]
      exact hcurrent
  · have hopens : level.curWindow = none ∨ t / max width 1 ≠ level.curWindowId := by
      rcases Finset.eq_empty_or_nonempty (opened.windows width) with hempty | hsome
      · exact .inl (hwindows.last_eq_none_iff.mpr hempty)
      · exact .inr fun heq => hknown (heq ▸ (hcurrent hsome).1)
    rw [if_pos hopens]
    refine ⟨rfl, ?_, fun _ => ?_⟩
    · rw [Visits.windows_insert]
      exact hwindows.openNew fun x hx => lt_of_le_of_ne (hbelow x hx) fun heq => hknown (heq ▸ hx)
    · rw [Visits.windows_insert]
      refine ⟨Finset.mem_insert_self _ _, fun x hx => ?_⟩
      rcases Finset.mem_insert.mp hx with rfl | hx
      · exact le_rfl
      · exact hbelow x hx

section

variable {κ : Type} [LinearOrder κ] [OrderTop κ] {keyCap valueCap : ℕ} {widths : List ℤ} {opened : Visits} {i : ℕ} {t : ℤ}

theorem KeyAcc.Exact.begin {marks : κ → Visits} {key : KeyAcc (SampledMap κ ValueAcc)} (h : key.Exact valueCap widths opened marks)
    (hlast : opened.Last i t) : key.Exact valueCap widths (opened.insert i t) marks := by
  obtain ⟨dict, hviews, hvalues, hknown⟩ := h
  exact ⟨dict, hviews, fun h => (hvalues h).begin hlast, hknown⟩

variable {marks : κ → κ → Visits}

/-- The next segment begins, and what was counted exactly still is. -/
theorem Acc.Exact.begin {acc : Acc κ} (h : acc.Exact keyCap valueCap widths opened marks)
    (ht : ∀ x ∈ opened.times, x ≤ t) (tmax : ℤ) :
    (acc.beginSegment t tmax).Exact keyCap valueCap widths (opened.insert acc.segments t) marks ∧
      (opened.insert acc.segments t).Current acc.segments t := by
  have hlast : opened.Last acc.segments t := by
    refine ⟨fun x hx => ?_, ht⟩
    rw [h.segments, Finset.mem_range] at hx
    exact hx.le
  refine ⟨⟨?_, ?_, ?_, h.valueCap_eq, ?_⟩, hlast.insert⟩
  · rw [Visits.insert, h.segments, beginSegment, Finset.range_add_one]
  · apply h.marked.openNew
    intro x hx
    rwa [h.segments, Finset.mem_range] at hx
  · rw [beginSegment, List.forall₂_map_right_iff]
    exact h.levels.imp fun width level hlevel => hlevel.begin hlast
  · obtain ⟨dict, hviews, hkeys, hknown⟩ := h.keys
    exact ⟨dict, hviews, fun k => (hkeys k).begin hlast, hknown⟩

/-! ### An observation -/

/-- The ordinals of the current segment and of its windows. -/
theorem Acc.Exact.current {acc : Acc κ} (h : acc.Exact keyCap valueCap widths opened marks)
    (hcur : opened.Current i t) : acc.curSeg = some (ordinalOf opened.segments i) ∧
      acc.levels.map Level.curWindow = widths.map fun width => some (ordinalOf (opened.windows width) (t / max width 1)) := by
  refine ⟨h.marked.last_of_greatest hcur.segment_mem hcur.segment, ?_⟩
  rw [← List.forall₂_eq_eq_eq, List.forall₂_map_left_iff, List.forall₂_map_right_iff]
  exact h.levels.flip.imp fun level width hlevel =>
    hlevel.windows.last_of_greatest (hcur.window_mem width) (hcur.window width)

/-- A value that is observed counts the segment and its windows. -/
theorem ValueAcc.Exact.observe {marks : Visits} {v : ValueAcc} (h : v.Exact widths opened marks) (hcur : opened.Current i t) :
    (v.observe (some (ordinalOf opened.segments i))
      (widths.map fun width => some (ordinalOf (opened.windows width) (t / max width 1)))).Exact
        widths opened (marks.insert i t) where
  segments := h.segments.mark hcur.segment_mem hcur.segment
  levels := by
    obtain ⟨segments, lastSeg, levels⟩ := v
    have hlevels := h.levels
    clear h
    unfold ValueAcc.observe
    dsimp only at hlevels ⊢
    induction hlevels with
    | nil => exact .nil
    | @cons width level widths levels hlevel _ ih =>
      refine .cons ?_ ih
      rw [Visits.windows_insert]
      have hmark := hlevel.mark (hcur.window_mem width) (hcur.window width)
      unfold ValueLevel.touch
      split at hmark
      · rename_i hdiffers
        rwa [if_pos hdiffers]
      · rename_i hsame
        rw [if_neg hsame]
        rwa [← not_not.mp hsame] at hmark

variable (hash : Text → κ)

/-- A key that is observed counts the segment, its windows and the value. -/
theorem KeyAcc.Exact.observe {marks : κ → Visits} {key : KeyAcc (SampledMap κ ValueAcc)} (h : key.Exact valueCap widths opened marks)
    (hcur : opened.Current i t) (o : Observation) :
    (key.observe (some (ordinalOf opened.segments i)) o
      (observeValue hash (some (ordinalOf opened.segments i))
        (widths.map fun width => some (ordinalOf (opened.windows width) (t / max width 1))) o.text)).Exact valueCap widths opened
          fun h => if hash o.text = h then (marks h).insert i t else marks h := by
  obtain ⟨dict, hviews, hvalues, hknown⟩ := h
  refine ⟨_, hviews.observe (lt_max_of_lt_right one_pos) (hash o.text) _ _, fun h => ?_, fun h => ?_⟩
  all_goals
    dsimp only
    by_cases hh : hash o.text = h
  · subst hh
    rw [Dictionary.record, update_self, if_pos rfl, Option.getD_some, length_map]
    exact (hvalues _).observe hcur
  · rw [Dictionary.record, update_of_ne (Ne.symm hh), if_neg hh]
    exact hvalues h
  · subst hh
    rw [Dictionary.record, update_self, if_pos rfl]
    exact iff_of_true rfl (Finset.insert_nonempty _ _)
  · rw [Dictionary.record, update_of_ne (Ne.symm hh), if_neg hh]
    exact hknown h

/-- A pair whose hashes are these. -/
def hashesTo (k h : κ) (o : Observation) : Bool := hash o.name = k ∧ hash o.text = h

/-- An observation counts for the names of its hash only. -/
theorem Acc.Exact.observe {acc : Acc κ} (h : acc.Exact keyCap valueCap widths opened marks)
    (hcur : opened.Current i t) (o : Observation) :
    (acc.observe hash o).Exact keyCap valueCap widths opened fun k h =>
      if hashesTo hash k h o then (marks k h).insert i t else marks k h where
  segments := h.segments
  marked := h.marked
  levels := h.levels
  valueCap_eq := h.valueCap_eq
  keys := by
    obtain ⟨dict, hviews, hkeys, hknown⟩ := h.keys
    obtain ⟨hseg, hwindows⟩ := h.current hcur
    refine ⟨_, hviews.observe (lt_max_of_lt_right one_pos) (hash o.name) _ _, fun k => ?_, fun k => ?_⟩
    all_goals by_cases hk : hash o.name = k
    · subst hk
      rw [Dictionary.record, update_self, Option.getD_some, hseg, hwindows]
      simp only [hashesTo, true_and, decide_eq_true_eq]
      refine KeyAcc.Exact.observe hash ?_ hcur o
      -- a new key is exact under any name
      have hkey := hkeys (hash o.name)
      rw [h.valueCap_eq]
      rcases hdict : dict (hash o.name) with _ | key
      · rw [hdict] at hkey
        exact hkey
      · rw [hdict] at hkey
        exact hkey
    · rw [Dictionary.record, update_of_ne (Ne.symm hk)]
      simpa [hashesTo, hk] using hkeys k
    · subst hk
      rw [Dictionary.record, update_self]
      refine iff_of_true rfl ⟨hash o.text, ?_⟩
      rw [if_pos (by simp [hashesTo])]
      exact Finset.insert_nonempty _ _
    · rw [Dictionary.record, update_of_ne (Ne.symm hk)]
      simpa [hashesTo, hk] using hknown k

end

/-! ### A run -/

/-- The call observes such a pair. -/
def ScanStep.shows (p : Observation → Bool) : ScanStep → Bool
  | .addRows _ => false
  | .observe o => p o

/-- Such a pair was observed in the segment. -/
def Segment.shows (p : Observation → Bool) (seg : Segment) : Bool := seg.steps.any (ScanStep.shows p)

/-- The windows of a width in which some segments begin. -/
def windowsOf (run : List Segment) (width : ℤ) : Finset ℤ := (run.map fun seg => seg.minTime / width).toFinset

/-- The segments of a run that have a property. -/
def visitsOf (p : Segment → Bool) (run : List Segment) : Visits where
  segments := ((run.zipIdx.filter fun e => p e.1).map Prod.snd).toFinset
  times := ((run.filter p).map Segment.minTime).toFinset

theorem visitsOf_concat (p : Segment → Bool) (run : List Segment) (seg : Segment) : visitsOf p (run ++ [seg]) =
    if p seg then (visitsOf p run).insert run.length seg.minTime else visitsOf p run := by
  have hconcat {α : Type} [DecidableEq α] (l : List α) (x : α) : (l ++ [x]).toFinset = insert x l.toFinset := by
    ext y
    simp
  by_cases hp : p seg
  · simp [visitsOf, Visits.insert, zipIdx_append, filter_append, hp, -toFinset_append, hconcat]
  · simp [visitsOf, zipIdx_append, filter_append, hp]

theorem card_visitsOf (p : Segment → Bool) (run : List Segment) : (visitsOf p run).segments.card = (run.filter p).length := by
  have hnodup : ((run.zipIdx.filter fun e => p e.1).map Prod.snd).Nodup := by
    apply Nodup.sublist (filter_sublist.map Prod.snd)
    rw [zipIdx_map_snd]
    exact nodup_range'
  have hlen : (run.zipIdx.filter fun e => p e.1).length = (run.filter p).length := by
    conv_rhs => rw [← zipIdx_map_fst 0 run, filter_map, length_map]
    rfl
  rw [visitsOf, toFinset_card_of_nodup hnodup, length_map, hlen]

theorem windows_visitsOf (p : Segment → Bool) (run : List Segment) {width : ℤ} (hpos : 0 < width) :
    (visitsOf p run).windows width = windowsOf (run.filter p) width := by
  rw [Visits.windows, visitsOf, windowsOf, max_eq_left (by omega)]
  ext id
  simp

section

variable {κ : Type} [LinearOrder κ] [OrderTop κ] (hash : Text → κ) {keyCap valueCap : ℕ} {widths : List ℤ}
  {run : List Segment}

/-- A new accumulator counts exactly what was seen, which is nothing. -/
theorem Acc.exact_new (keyCap valueCap : ℕ) (widths : List ℤ) :
    (Acc.new keyCap valueCap widths : Acc κ).Exact keyCap valueCap widths ⟨∅, ∅⟩ fun _ _ => ⟨∅, ∅⟩ where
  segments := rfl
  marked := .start ∅
  levels := by
    rw [Acc.new, List.forall₂_map_right_iff, List.forall₂_same]
    exact fun width _ => ⟨rfl, .start _, fun hsome => absurd hsome (by simp [Visits.windows])⟩
  valueCap_eq := rfl
  keys := ⟨_, .new keyCap, fun _ => ⟨_, .new valueCap, fun _ => ValueAcc.exact_new widths _, fun _ => by simp⟩,
    fun _ => by simp⟩

/-- The calls of a segment's scan mark the segment at what they observe. -/
theorem Acc.Exact.steps {opened : Visits} {i : ℕ} {t : ℤ} (hcur : opened.Current i t) (steps : List ScanStep)
    {marks : κ → κ → Visits} {acc : Acc κ} (h : acc.Exact keyCap valueCap widths opened marks) :
    (steps.foldl (Acc.step hash) acc).Exact keyCap valueCap widths opened fun k h =>
      if steps.any (ScanStep.shows (hashesTo hash k h)) then (marks k h).insert i t else marks k h := by
  induction steps generalizing acc marks with
  | nil => exact h
  | cons step steps ih =>
    cases step with
    | addRows n => exact ih ⟨h.segments, h.marked, h.levels, h.valueCap_eq, h.keys⟩
    | observe o =>
      have hnext := ih (h.observe hash hcur o)
      have hmarks (k h : κ) : (if (ScanStep.observe o :: steps).any (ScanStep.shows (hashesTo hash k h)) then
          (marks k h).insert i t else marks k h) =
          if steps.any (ScanStep.shows (hashesTo hash k h)) then
            (if hashesTo hash k h o then (marks k h).insert i t else marks k h).insert i t
          else if hashesTo hash k h o then (marks k h).insert i t else marks k h := by
        rw [any_cons, ScanStep.shows]
        cases hashesTo hash k h o <;> simp [Visits.insert]
      simp only [hmarks]
      exact hnext

/-- After a run of segments in order of time, all of it is counted exactly. -/
theorem Acc.exact_scanAll (keyCap valueCap : ℕ) (widths : List ℤ)
    (hsorted : run.Pairwise fun a b => a.minTime ≤ b.minTime) :
    ((Acc.new keyCap valueCap widths).scanAll hash run).Exact keyCap valueCap widths (visitsOf (fun _ => true) run)
      fun k h => visitsOf (Segment.shows (hashesTo hash k h)) run := by
  induction run using List.reverseRecOn with
  | nil => exact Acc.exact_new keyCap valueCap widths
  | append_singleton run seg ih =>
    obtain ⟨hrun, -, hlast⟩ := pairwise_append.mp hsorted
    have hacc := ih hrun
    have hlen : ((Acc.new keyCap valueCap widths).scanAll hash run).segments = run.length := by
      have hcard := card_visitsOf (fun _ => true) run
      rw [hacc.segments, Finset.card_range, filter_true] at hcard
      exact hcard
    have htimes : ∀ x ∈ (visitsOf (fun _ => true) run).times, x ≤ seg.minTime := by
      intro x hx
      simp only [visitsOf, filter_true, mem_toFinset, mem_map] at hx
      obtain ⟨s, hs, rfl⟩ := hx
      exact hlast s hs seg (mem_singleton_self seg)
    obtain ⟨hbegun, hcur⟩ := hacc.begin htimes seg.maxTime
    rw [hlen] at hbegun hcur
    have hdone := hbegun.steps hash hcur seg.steps
    rw [Acc.scanAll, foldl_append]
    simp only [visitsOf_concat, if_true]
    exact hdone

/-- The counts of a value are those of the segments that show it. -/
structure ValueAcc.Counts (widths : List ℤ) (run : List Segment) (v : ValueAcc) : Prop where
  segments : v.segments = run.length
  windows : v.levels.map ValueLevel.windows = widths.map fun width => (windowsOf run width).card

theorem map_count_eq {α : Type} {count : α → ℕ} {f g : ℤ → ℕ} {widths : List ℤ} {levels : List α}
    (h : List.Forall₂ (fun width level => count level = f width) widths levels) (hfg : ∀ width ∈ widths, f width = g width) :
    levels.map count = widths.map g := by
  induction h with
  | nil => rfl
  | cons hlevel _ ih =>
    rw [map_cons, map_cons, hlevel, hfg _ mem_cons_self,
      ih fun width hwidth => hfg width (mem_cons_of_mem _ hwidth)]

theorem ValueAcc.Exact.counts {opened : Visits} {p : Segment → Bool} {v : ValueAcc}
    (h : v.Exact widths opened (visitsOf p run)) (hwidths : ∀ width ∈ widths, 0 < width) :
    v.Counts widths (run.filter p) where
  segments := h.segments.count_eq.trans (card_visitsOf p run)
  windows := map_count_eq (h.levels.imp fun _ _ hlevel => hlevel.count_eq) fun width hwidth => by
    rw [windows_visitsOf p run (hwidths width hwidth)]

theorem visitsOf_nonempty {p : Segment → Bool} : (visitsOf p run).segments.Nonempty ↔ ∃ seg ∈ run, p seg = true := by
  rw [← Finset.card_pos, card_visitsOf, length_pos_iff, ne_eq, filter_eq_nil_iff, not_forall₂]
  simp only [not_not, exists_prop]

/-- What was observed in some segments. -/
def observedIn (run : List Segment) : List Observation := run.flatMap fun seg => seg.steps.filterMap fun
  | .addRows _ => none
  | .observe o => some o

/-- A segment shows what one of its observations satisfies. -/
theorem exists_shows {p : Observation → Bool} :
    (∃ seg ∈ run, seg.shows p = true) ↔ ∃ o ∈ observedIn run, p o = true := by
  simp only [observedIn, mem_flatMap, mem_filterMap, Segment.shows, any_eq_true]
  constructor
  · rintro ⟨seg, hseg, step, hstep, hp⟩
    cases step with
    | addRows n => exact nomatch hp
    | observe o => exact ⟨o, ⟨seg, hseg, _, hstep, rfl⟩, hp⟩
  · rintro ⟨o, ⟨seg, hseg, step, hstep, ho⟩, hp⟩
    cases step with
    | addRows n => exact nomatch ho
    | observe o' =>
      obtain rfl := Option.some.inj ho
      exact ⟨seg, hseg, _, hstep, hp⟩

/-- The hashes of the names that were observed. -/
def namesIn (run : List Segment) : Finset κ := ((observedIn run).map fun o => hash o.name).toFinset

/-- The hashes of the values that were observed under a name. -/
def valuesIn (run : List Segment) (k : κ) : Finset κ :=
  (((observedIn run).filter fun o => hash o.name = k).map fun o => hash o.text).toFinset

/-- Where there is room for all names, and for all values of a name, its values are retained. -/
theorem retained_of_room {keyCap valueCap : ℕ} {widths : List ℤ}
    (hsorted : run.Pairwise fun a b => a.minTime ≤ b.minTime) {o : Observation} (ho : o ∈ observedIn run)
    (hnames : (namesIn hash run).card ≤ keyCap) (hvalues : (valuesIn hash run (hash o.name)).card ≤ valueCap) :
    ∃ key v, (hash o.name, key) ∈ ((Acc.new keyCap valueCap widths).scanAll hash run).keys.entries ∧
      (hash o.text, v) ∈ key.values.entries := by
  have hshown (k h : κ) : (visitsOf (Segment.shows (hashesTo hash k h)) run).segments.Nonempty ↔
      ∃ o ∈ observedIn run, hash o.name = k ∧ hash o.text = h := by
    rw [visitsOf_nonempty, exists_shows]
    simp only [hashesTo, decide_eq_true_eq]
  obtain ⟨dict, hviews, hkeys, hknown⟩ := (Acc.exact_scanAll hash keyCap valueCap widths hsorted).keys
  obtain ⟨key, hkey⟩ := Option.isSome_iff_exists.mp
    ((hknown (hash o.name)).mpr ⟨hash o.text, (hshown _ _).mpr ⟨o, ho, rfl, rfl⟩⟩)
  have hthis := hkeys (hash o.name)
  rw [hkey, Option.getD_some] at hthis
  obtain ⟨values, hviews', -, hknown'⟩ := hthis
  obtain ⟨v, hv⟩ := Option.isSome_iff_exists.mp ((hknown' (hash o.text)).mpr ((hshown _ _).mpr ⟨o, ho, rfl, rfl⟩))
  refine ⟨key, v, hviews.mem_of_room (fun k hk => ?_) (hnames.trans (le_max_left _ _)) hkey,
    hviews'.mem_of_room (fun h hh => ?_) (hvalues.trans (le_max_left _ _)) hv⟩
  · obtain ⟨h, hh⟩ := (hknown k).mp hk
    obtain ⟨o', ho', hname, -⟩ := (hshown k h).mp hh
    exact mem_toFinset.mpr (mem_map.mpr ⟨o', ho', hname⟩)
  · obtain ⟨o', ho', hname, htext⟩ := (hshown _ h).mp ((hknown' h).mp hh)
    exact mem_toFinset.mpr (mem_map.mpr ⟨o', mem_filter.mpr ⟨ho', decide_eq_true hname⟩, htext⟩)

/-- The ladder counts exactly, whatever was dropped in between: all windows; for the hashes that are kept, the segments
and the windows in which they were observed; and, where no other observed name has their hashes, those of the key and
of the value. Below the caps every value that was observed is kept. -/
theorem ladder_exact (keyCap valueCap : ℕ) {widths : List ℤ} {run : List Segment} (hwidths : ∀ width ∈ widths, 0 < width)
    (hsorted : run.Pairwise fun a b => a.minTime ≤ b.minTime) :
    let acc := (Acc.new keyCap valueCap widths).scanAll hash run
    (acc.segments = run.length ∧ acc.levels.map Level.windows = widths.map fun width => (windowsOf run width).card) ∧
      (∀ k key h v, (k, key) ∈ acc.keys.entries → (h, v) ∈ key.values.entries →
        v.Counts widths (run.filter (Segment.shows (hashesTo hash k h)))) ∧
      (∀ name text, (∀ seg ∈ run, ∀ o, ScanStep.observe o ∈ seg.steps →
          (hash o.name = hash name → o.name = name) ∧ (hash o.text = hash text → o.text = text)) →
        ∀ key v, (hash name, key) ∈ acc.keys.entries → (hash text, v) ∈ key.values.entries →
          v.Counts widths (run.filter (Segment.shows fun o => o.name = name ∧ o.text = text))) ∧
      ∀ o ∈ observedIn run, (namesIn hash run).card ≤ keyCap → (valuesIn hash run (hash o.name)).card ≤ valueCap →
        ∃ key v, (hash o.name, key) ∈ acc.keys.entries ∧ (hash o.text, v) ∈ key.values.entries := by
  intro acc
  have hexact := Acc.exact_scanAll hash keyCap valueCap widths hsorted
  have hall : run.filter (fun _ => true) = run := filter_true run
  have hhashes (k : κ) (key : KeyAcc (SampledMap κ ValueAcc)) (h : κ) (v : ValueAcc) (hkey : (k, key) ∈ acc.keys.entries)
      (hv : (h, v) ∈ key.values.entries) : v.Counts widths (run.filter (Segment.shows (hashesTo hash k h))) := by
    obtain ⟨dict, hviews, hkeys, -⟩ := hexact.keys
    have hthis := hkeys k
    rw [hviews.mem hkey, Option.getD_some] at hthis
    obtain ⟨values, hviews', hvalues, -⟩ := hthis
    have hvalue := hvalues h
    rw [hviews'.mem hv, Option.getD_some] at hvalue
    exact hvalue.counts hwidths
  refine ⟨⟨?_, ?_⟩, hhashes, ?_, fun o ho => retained_of_room hash hsorted ho⟩
  · have hcount := hexact.marked.count_eq
    rwa [card_visitsOf, hall] at hcount
  · apply map_count_eq (hexact.levels.imp fun _ _ hlevel => hlevel.windows.count_eq)
    intro width hwidth
    rw [windows_visitsOf _ run (hwidths width hwidth), hall]
  · intro name text halone key v hkey hv
    have hcounts := hhashes _ _ _ _ hkey hv
    have hsame : run.filter (Segment.shows (hashesTo hash (hash name) (hash text))) =
        run.filter (Segment.shows fun o => o.name = name ∧ o.text = text) := by
      apply filter_congr
      intro seg hseg
      rw [Segment.shows, Segment.shows, Bool.eq_iff_iff, any_eq_true, any_eq_true]
      refine exists_congr fun step => and_congr_right fun hstep => ?_
      cases step with
      | addRows n => rfl
      | observe o =>
        obtain ⟨hname, htext⟩ := halone seg hseg o hstep
        simp only [ScanStep.shows, hashesTo, decide_eq_true_eq]
        exact ⟨fun ⟨hn, ht⟩ => ⟨hname hn, htext ht⟩, fun ⟨hn, ht⟩ => by rw [hn, ht]; exact ⟨rfl, rfl⟩⟩
    rwa [hsame] at hcounts

/-! ### Three segments, two of which are in one window -/

def lengthHash (s : Text) : Fin 16 := Fin.ofNat 16 s.length

/-- The figures of a first segment without rows. -/
def begun : Acc (Fin 16) := (Acc.new 4 4 []).beginSegment 0 0

def oneRow (t : ℤ) (value : ℕ) : Segment where
  minTime := t
  maxTime := t + 10
  steps := [.addRows 1, .observe ⟨.attributes, "key".toList, .null, List.replicate value 'v', 1, true⟩]

def threeSegments : List Segment := [oneRow (-30) 2, oneRow 10 2, oneRow 50 5]

/-- The value of the first two segments is retained with what it counts. -/
theorem ladder_exact_threeSegments :
    let acc := (Acc.new 4 4 [60, 3600]).scanAll lengthHash threeSegments
    acc.levels.map Level.windows = [2, 2] ∧
      ∃ key v, (3, key) ∈ acc.keys.entries ∧ (2, v) ∈ key.values.entries ∧
        v.Counts [60, 3600] (threeSegments.take 2) := by
  have hsorted : threeSegments.Pairwise fun a b => a.minTime ≤ b.minTime := by decide
  obtain ⟨⟨-, hwindows⟩, hvalues, -, hretained⟩ :=
    ladder_exact lengthHash 4 4 (show ∀ width ∈ [60, 3600], (0 : ℤ) < width by decide) hsorted
  obtain ⟨key, v, hkey, hv⟩ := hretained ⟨.attributes, "key".toList, .null, ['v', 'v'], 1, true⟩
    mem_cons_self (by decide) (by decide)
  exact ⟨hwindows.trans (by decide), key, v, hkey, hv, hvalues 3 key 2 v hkey hv⟩

end

end Imbh.Attrstats
