import Imbh.Lgtm.PromExecute

/-!
# Well-formed vectors

The result of an expression has each label set once, and at each instant at most one value of it. A rate
leaves out the name of the metric, so two series that differ in their name only meet in one label set.

* `well_formed_iff` — the results at all levels are well-formed unless two rates meet.
-/

namespace Imbh.Lgtm

open Lib List

/-! ## Instants -/

/-- The instants increase. -/
theorem instantsFrom_ordered {range : EvalRange} {points : ℕ} {at' : ℤ} {out : List ℤ}
    (h : instantsFrom range points at' = .ok out) (hat : at' ≤ range.endNs) : out.Pairwise (· < ·) := by
  induction points generalizing at' out with
  | zero => exact absurd h (by simp [instantsFrom])
  | succ points ih =>
    unfold instantsFrom at h
    split at h
    · rw [← Except.ok.inj h]
      exact pairwise_singleton _ _
    · dsimp only at h
      split at h
      · rw [← Except.ok.inj h]
        exact pairwise_singleton _ _
      · rename_i hnext
        rw [not_or, not_le, not_lt] at hnext
        obtain ⟨rest, hrest, h⟩ := bind_eq_ok.mp h
        rw [← Except.ok.inj h]
        refine pairwise_cons.mpr ⟨fun t ht => ?_, ih hrest hnext.2⟩
        exact hnext.1.trans_le (mem_instantsFrom hrest hnext.2 t ht).1

theorem instants_ordered {range : EvalRange} {limits : EvalLimits} {out : List ℤ}
    (h : range.instants limits = .ok out) : out.Pairwise (· < ·) := by
  unfold EvalRange.instants at h
  split at h
  · exact absurd h (by simp)
  · rename_i hrange
    rw [not_or, not_lt] at hrange
    exact instantsFrom_ordered h hrange.1

/-! ## Vectors -/

/-- Each label set occurs once, and the times of each series are strictly increasing instants. -/
structure WellFormed (instants : List ℤ) (out : List PromSeries) : Prop where
  labels : (out.map PromSeries.labels).Nodup
  ordered : ∀ item ∈ out, (item.samples.map FloatSample.timestampNs).Pairwise (· < ·)
  drawn : ∀ item ∈ out, ∀ s ∈ item.samples, s.timestampNs ∈ instants

variable {pushed : List (LabelSet × FloatSample)}

section

variable {step : ℤ → List (LabelSet × FloatSample)} {instants : List ℤ} {limits : EvalLimits}
  {out : List PromSeries}

theorem boundedSeries_eq (h : boundedSeries pushed limits = .ok out) :
    out = (groupByLabels pushed).map fun g => ⟨g.1, g.2⟩ := by
  unfold boundedSeries at h
  dsimp only at h
  split at h
  · exact absurd h (by simp)
  · split at h
    · exact absurd h (by simp)
    · exact (Except.ok.inj h).symm

/-- The times of a label set: each instant as often as it pushes the label set. -/
theorem times_of_labels (hat : ∀ at' ∈ instants, ∀ p ∈ step at', p.2.timestampNs = at') (labels : LabelSet) :
    (((instants.flatMap step).filter fun p => p.1 = labels).map Prod.snd).map FloatSample.timestampNs =
      instants.flatMap fun at' => List.replicate (((step at').map Prod.fst).count labels) at' := by
  rw [filter_flatMap, map_flatMap, map_flatMap]
  apply flatMap_congr
  intro at' hmem
  refine eq_replicate_iff.mpr ⟨?_, fun t ht => ?_⟩
  · rw [length_map, length_map, List.count, countP_map, countP_eq_length_filter]
    refine congrArg List.length (filter_congr fun p _ => ?_)
    rw [Function.comp_apply, Bool.eq_iff_iff, decide_eq_true_eq, beq_iff_eq]
  · rw [map_map] at ht
    obtain ⟨p, hp, rfl⟩ := mem_map.mp ht
    exact hat at' hmem p (mem_of_mem_filter hp)

/-- The times of all instants, each as often as it counts, are strictly increasing if none counts twice. -/
theorem replicated_ordered (hinstants : instants.Pairwise (· < ·)) (count : ℤ → ℕ) :
    (instants.flatMap fun at' => List.replicate (count at') at').Pairwise (· < ·) ↔
      ∀ at' ∈ instants, count at' ≤ 1 := by
  rw [pairwise_flatMap]
  constructor
  · rintro ⟨hsame, -⟩ at' hat
    have hpair := hsame at' hat
    by_contra hcount
    exact lt_irrefl _ (pairwise_replicate.mp hpair |>.resolve_left hcount)
  · intro hcount
    refine ⟨fun at' hat => pairwise_replicate.mpr (Or.inl (hcount at' hat)), ?_⟩
    refine hinstants.imp fun hlt x hx y hy => ?_
    rw [eq_of_mem_replicate hx, eq_of_mem_replicate hy]
    exact hlt

/-- The series are well-formed where each instant pushes each label set once. -/
theorem boundedSeries_wellFormed (hinstants : instants.Pairwise (· < ·))
    (hat : ∀ at' ∈ instants, ∀ p ∈ step at', p.2.timestampNs = at')
    (h : boundedSeries (instants.flatMap step) limits = .ok out) :
    WellFormed instants out ↔ ∀ at' ∈ instants, ((step at').map Prod.fst).Nodup := by
  have hout := boundedSeries_eq h
  have htimes {group : LabelSet × List FloatSample} (hgroup : group ∈ groupByLabels (instants.flatMap step)) :
      group.2.map FloatSample.timestampNs =
        instants.flatMap fun at' => List.replicate (((step at').map Prod.fst).count group.1) at' := by
    rw [mem_groupByLabels hgroup, times_of_labels hat]
  constructor
  · intro hformed at' hmem
    rw [nodup_iff_count_le_one]
    intro labels
    by_cases hlabels : labels ∈ (step at').map Prod.fst
    · obtain ⟨p, hp, rfl⟩ := mem_map.mp hlabels
      obtain ⟨group, hgroup, hkey⟩ : ∃ group ∈ groupByLabels (instants.flatMap step), group.1 = p.1 := by
        refine ⟨_, mem_map_of_mem ?_, rfl⟩
        rw [mem_insertionSort, mem_dedup]
        exact mem_map_of_mem (mem_flatMap.mpr ⟨at', hmem, hp⟩)
      have hordered := hformed.ordered ⟨group.1, group.2⟩ (hout ▸ mem_map_of_mem hgroup)
      dsimp only at hordered
      rw [htimes hgroup, hkey] at hordered
      exact (replicated_ordered hinstants _).mp hordered at' hmem
    · rw [count_eq_zero_of_not_mem hlabels]
      exact zero_le_one
  · intro hnodup
    constructor
    · rw [hout, map_map]
      exact pairwise_map.mpr (groupByLabels_nodup _)
    · rw [hout]
      intro item hitem
      obtain ⟨group, hgroup, rfl⟩ := mem_map.mp hitem
      dsimp only
      rw [htimes hgroup, replicated_ordered hinstants]
      exact fun at' hmem => nodup_iff_count_le_one.mp (hnodup at' hmem) _
    · rw [hout]
      intro item hitem s hs
      obtain ⟨group, hgroup, rfl⟩ := mem_map.mp hitem
      rw [mem_groupByLabels hgroup] at hs
      obtain ⟨p, hp, rfl⟩ := mem_map.mp hs
      obtain ⟨at', hmem, hstep⟩ := mem_flatMap.mp (mem_of_mem_filter hp)
      exact hat at' hmem p hstep ▸ hmem

end

/-! ## Steps -/

section

variable {α β : Type}

/-- What a fallible step pushes. -/
def pushes : Except SemanticError (List β) → List β
  | .ok out => out
  | .error _ => []

/-- If every element succeeds, the results stand in order. -/
theorem flatMapM_eq_flatMap {f : α → Except SemanticError (List β)} {l : List α} {out : List β}
    (h : flatMapM f l = .ok out) :
    out = l.flatMap (fun a => pushes (f a)) ∧ ∀ a ∈ l, ∃ here, f a = .ok here := by
  induction l generalizing out with
  | nil =>
    rw [← Except.ok.inj h]
    exact ⟨rfl, fun a ha => absurd ha not_mem_nil⟩
  | cons a l ih =>
    obtain ⟨here, hhere, h⟩ := bind_eq_ok.mp h
    obtain ⟨rest, hrest, h⟩ := bind_eq_ok.mp h
    obtain ⟨heq, hall⟩ := ih hrest
    constructor
    · rw [← Except.ok.inj h, flatMap_cons, hhere, heq]
      rfl
    · exact forall_mem_cons.mpr ⟨⟨here, hhere⟩, hall⟩

/-- Where each element pushes its key or nothing. -/
theorem keys_of_flatMap {κ : Type} {g : α → List (κ × β)} {key : α → κ} {p : α → Bool} {l : List α}
    (h : ∀ a ∈ l, (g a).map Prod.fst = if p a then [key a] else []) :
    (l.flatMap g).map Prod.fst = (l.filter p).map key := by
  induction l with
  | nil => rfl
  | cons a l ih =>
    rw [flatMap_cons, map_append, h a mem_cons_self,
      ih fun b hb => h b (mem_cons_of_mem _ hb), filter_cons]
    split
    · rfl
    · rfl

end

section

variable (regex : Text → Option (Text → Bool)) (arith : Arith)

/-- There are two samples, and the first and the last are apart by more than no time. -/
def apart : List FloatSample → Bool
  | first :: second :: rest =>
      !fLe (seconds arith (((second :: rest).getLast (cons_ne_nil _ _)).timestampNs - first.timestampNs)) 0
  | _ => false

/-- The series has a rate at the instant: it matches, and has samples in the window that are apart. -/
def hasRate (matchers : List LabelMatcher) (windowNs : ℕ) (at' : ℤ) (item : PromSeries) : Bool :=
  (match selectorMatches regex item.labels matchers with
    | .ok matched => matched
    | .error _ => false) &&
  apart arith (item.samples.filter fun s => inWindow (saturatingSub at' windowNs) at' s.timestampNs)

variable {regex arith} {matchers : List LabelMatcher} {windowNs : ℕ} {at' : ℤ} {item : PromSeries}

/-- A rate is there when the samples are. -/
theorem extrapolatedRate_some {samples : List FloatSample} {start stop : ℤ} {value : Option F64}
    (h : extrapolatedRate arith samples start stop = .ok value) :
    value.isSome = apart arith samples := by
  unfold extrapolatedRate at h
  split at h
  · exact absurd h (by simp)
  · match samples with
    | [] =>
      rw [← Except.ok.inj h]
      rfl
    | [_] =>
      rw [← Except.ok.inj h]
      rfl
    | first :: second :: rest =>
      dsimp only at h
      rw [apart]
      split at h
      · exact absurd h (by simp)
      · split at h
        · exact absurd h (by simp)
        · split at h
          · rename_i hle
            rw [← Except.ok.inj h, hle]
            rfl
          · rename_i hle
            rw [← Except.ok.inj h, Bool.eq_false_iff.mpr hle]
            rfl

/-- The step of one series pushes its label set without the name if it has a rate. -/
theorem rateAt_key (h : rateAt regex arith matchers windowNs at' item = .ok pushed) :
    pushed.map Prod.fst = (if hasRate regex arith matchers windowNs at' item then [item.labels.without []] else []) ∧
      ∀ p ∈ pushed, p.2.timestampNs = at' := by
  unfold rateAt at h
  obtain ⟨matched, hmatched, h⟩ := bind_eq_ok.mp h
  unfold hasRate
  rw [hmatched]
  dsimp only
  rcases matched with _ | _
  · rw [← Except.ok.inj h]
    simp
  · obtain ⟨selected, hselected, h⟩ := bind_eq_ok.mp h
    obtain ⟨value, hvalue, h⟩ := bind_eq_ok.mp h
    have hsome := extrapolatedRate_some hvalue
    unfold selectRange at hselected
    split at hselected
    · exact absurd hselected (by simp)
    · rw [Except.ok.inj hselected, Bool.true_and, ← hsome, ← Except.ok.inj h]
      rcases value with _ | value
      · simp
      · simp

/-! ## Levels -/

variable {series : List PromSeries} {instants : List ℤ} {limits : EvalLimits} {out : List PromSeries}

/-- What a step pushes at its instant. -/
theorem keys_of_step {α β : Type} {f : α → Except SemanticError (List (LabelSet × β))} {l : List α}
    {pushed : List (LabelSet × β)} {key : α → LabelSet} {p : α → Bool} (h : flatMapM f l = .ok pushed)
    (hkey : ∀ a ∈ l, ∀ here, f a = .ok here → here.map Prod.fst = if p a then [key a] else []) :
    pushed.map Prod.fst = (l.filter p).map key := by
  obtain ⟨rfl, hall⟩ := flatMapM_eq_flatMap h
  apply keys_of_flatMap
  intro a ha
  obtain ⟨here, hhere⟩ := hall a ha
  rw [hhere]
  exact hkey a ha here hhere

/-- Where each element pushes its key at most. -/
theorem keys_sublist {α β : Type} {f : α → Except SemanticError (List (LabelSet × β))} {l : List α}
    {pushed : List (LabelSet × β)} {key : α → LabelSet} (h : flatMapM f l = .ok pushed)
    (hkey : ∀ a ∈ l, ∀ here, f a = .ok here → (here.map Prod.fst).Sublist [key a]) :
    (pushed.map Prod.fst).Sublist (l.map key) := by
  induction l generalizing pushed with
  | nil =>
    rw [← Except.ok.inj h]
    exact Sublist.refl _
  | cons a l ih =>
    obtain ⟨here, hhere, h⟩ := bind_eq_ok.mp h
    obtain ⟨rest, hrest, h⟩ := bind_eq_ok.mp h
    rw [← Except.ok.inj h, map_append, map_cons]
    exact (hkey a mem_cons_self here hhere).append
      (ih hrest fun b hb => hkey b (mem_cons_of_mem _ hb))

/-- A selection has each matching series once. -/
theorem selectInstant_nodup {lookbackNs : ℕ} {found : List (LabelSet × FloatSample)}
    (h : selectInstant regex matchers at' lookbackNs series = .ok found)
    (hlabels : (series.map PromSeries.labels).Nodup) : (found.map Prod.fst).Nodup := by
  refine hlabels.sublist (keys_sublist h fun item _ here hhere => ?_)
  obtain ⟨matched, hmatched, hhere⟩ := bind_eq_ok.mp hhere
  rcases matched with _ | _
  · rw [← Except.ok.inj hhere]
    exact nil_sublist _
  · rw [← Except.ok.inj hhere]
    rcases latestSample _ with _ | sample
    · exact nil_sublist _
    · exact Sublist.refl _

/-- The results of one level, given what each instant pushes. -/
theorem level_wellFormed {f : ℤ → Except SemanticError (List (LabelSet × FloatSample))}
    (hinstants : instants.Pairwise (· < ·)) (hpushed : flatMapM f instants = .ok pushed)
    (h : boundedSeries pushed limits = .ok out)
    (hat : ∀ at' ∈ instants, ∀ here, f at' = .ok here → ∀ p ∈ here, p.2.timestampNs = at') :
    WellFormed instants out ↔ ∀ at' ∈ instants, ∀ here, f at' = .ok here → (here.map Prod.fst).Nodup := by
  obtain ⟨rfl, hall⟩ := flatMapM_eq_flatMap hpushed
  rw [boundedSeries_wellFormed hinstants _ h]
  · constructor
    · intro hnodup at' hmem here hhere
      have hstep := hnodup at' hmem
      rw [hhere] at hstep
      exact hstep
    · intro hnodup at' hmem
      obtain ⟨here, hhere⟩ := hall at' hmem
      rw [hhere]
      exact hnodup at' hmem here hhere
  · intro at' hmem p hp
    obtain ⟨here, hhere⟩ := hall at' hmem
    rw [hhere] at hp
    exact hat at' hmem here hhere p hp

/-- Two series of the instant have a rate and one label set without the name. -/
def Meet (regex : Text → Option (Text → Bool)) (arith : Arith) (series : List PromSeries)
    (matchers : List LabelMatcher) (windowNs : ℕ) (at' : ℤ) : Prop :=
  ∃ a ∈ series, ∃ b ∈ series, a ≠ b ∧ a.labels.without [] = b.labels.without [] ∧
    hasRate regex arith matchers windowNs at' a = true ∧ hasRate regex arith matchers windowNs at' b = true

/-- The rates at an instant have each label set once unless two meet. -/
theorem rates_nodup_iff (h : flatMapM (rateAt regex arith matchers windowNs at') series = .ok pushed)
    (hlabels : (series.map PromSeries.labels).Nodup) :
    (pushed.map Prod.fst).Nodup ↔ ¬Meet regex arith series matchers windowNs at' := by
  have hkeys : pushed.map Prod.fst = (series.filter (hasRate regex arith matchers windowNs at')).map
      fun item => item.labels.without [] := keys_of_step h fun item _ here hhere => (rateAt_key hhere).1
  rw [hkeys]
  have hseries : (series.filter (hasRate regex arith matchers windowNs at')).Nodup :=
    (Nodup.of_map _ hlabels).filter _
  constructor
  · rintro hnodup ⟨a, ha, b, hb, hne, heq, hrate, hrate'⟩
    exact hne (inj_on_of_nodup_map hnodup (mem_filter.mpr ⟨ha, hrate⟩)
      (mem_filter.mpr ⟨hb, hrate'⟩) heq)
  · intro hmeet
    refine hseries.map_on fun a ha b hb heq => ?_
    by_contra hne
    obtain ⟨ha, hrate⟩ := mem_filter.mp ha
    obtain ⟨hb, hrate'⟩ := mem_filter.mp hb
    exact hmeet ⟨a, ha, b, hb, hne, heq, hrate, hrate'⟩

variable (regex arith series)

/-- Two rates of the leaf of the expression meet at an instant. -/
def RatesMeet (instants : List ℤ) : PromExpr → Prop
  | .aggregate _ _ input => RatesMeet instants input
  | .rate matchers windowNs => ∃ at' ∈ instants, Meet regex arith series matchers windowNs at'
  | _ => False

/-- The aggregation finds each sample of its input. -/
def Counted (input : List PromSeries) : Prop :=
  ∀ item ∈ input, ∀ s ∈ item.samples, item.samples.find? (fun r => r.timestampNs = s.timestampNs) = some s

variable (histograms : List PromHistogramSeries) (lookbackNs : ℕ) (limits)

/-- The results at all levels are well-formed, and each aggregation finds each sample of its input. -/
def LevelsWellFormed (instants : List ℤ) (depth : ℕ) : PromExpr → Prop
  | .aggregate op grouping input =>
      (∃ out, evalPromAt regex arith series histograms instants lookbackNs limits depth
          (.aggregate op grouping input) = .ok out ∧ WellFormed instants out) ∧
        (∃ inner, evalPromAt regex arith series histograms instants lookbackNs limits (depth + 1) input =
          .ok inner ∧ Counted inner) ∧
        LevelsWellFormed instants (depth + 1) input
  | expr => ∃ out, evalPromAt regex arith series histograms instants lookbackNs limits depth expr = .ok out ∧
      WellFormed instants out

variable {regex arith series histograms lookbackNs limits} {depth : ℕ} {expr : PromExpr}
  {matchers : List LabelMatcher}

/-- A well-formed vector has no more samples than are counted. -/
theorem counted_of_wellFormed (h : WellFormed instants out) : Counted out := by
  intro item hitem s hs
  have hordered := pairwise_map.mp (h.ordered item hitem)
  generalize item.samples = samples at hs hordered
  induction hordered with
  | nil => exact absurd hs not_mem_nil
  | @cons a l hlt _ ih =>
    rcases mem_cons.mp hs with rfl | hs
    · exact find?_cons_of_pos (by simp)
    · rw [find?_cons_of_neg (by simpa using (hlt s hs).ne)]
      exact ih hs

/-- If every level is well formed, so is the answer. -/
theorem wellFormed_of_levels
    (h : LevelsWellFormed regex arith series limits histograms lookbackNs instants depth expr)
    (hout : evalPromAt regex arith series histograms instants lookbackNs limits depth expr = .ok out) :
    WellFormed instants out := by
  have hlevel : ∃ out', evalPromAt regex arith series histograms instants lookbackNs limits depth expr =
      .ok out' ∧ WellFormed instants out' := by
    cases expr with
    | aggregate op grouping input => exact h.1
    | selector _ => exact h
    | rate _ _ => exact h
    | histogramQuantile _ _ _ _ => exact h
  obtain ⟨out', hout', hformed⟩ := hlevel
  rw [Except.ok.inj (hout.symm.trans hout')]
  exact hformed

/-- The pushes of a selector and of a quantile have each label set once at an instant. -/
theorem selector_wellFormed (hinstants : instants.Pairwise (· < ·)) (hlabels : (series.map PromSeries.labels).Nodup)
    (h : evalPromAt regex arith series histograms instants lookbackNs limits depth (.selector matchers) = .ok out) :
    WellFormed instants out := by
  rw [evalPromAt] at h
  split at h
  · exact absurd h (by simp)
  · obtain ⟨pushed, hpushed, h⟩ := bind_eq_ok.mp h
    refine (level_wellFormed hinstants hpushed h fun at' _ here hhere p hp => ?_).mpr
      fun at' _ here hhere => ?_
    · obtain ⟨found, hfound, hhere⟩ := bind_eq_ok.mp hhere
      rw [← Except.ok.inj hhere] at hp
      obtain ⟨q, _, rfl⟩ := mem_map.mp hp
      rfl
    · obtain ⟨found, hfound, hhere⟩ := bind_eq_ok.mp hhere
      rw [← Except.ok.inj hhere, map_map]
      exact selectInstant_nodup hfound hlabels

/-- A rate is well formed over distinct labels. -/
theorem rate_wellFormed {windowNs : ℕ} (hinstants : instants.Pairwise (· < ·))
    (hlabels : (series.map PromSeries.labels).Nodup)
    (h : evalPromAt regex arith series histograms instants lookbackNs limits depth (.rate matchers windowNs) =
      .ok out) :
    WellFormed instants out ↔ ¬RatesMeet regex arith series instants (.rate matchers windowNs) := by
  rw [evalPromAt] at h
  split at h
  · exact absurd h (by simp)
  · obtain ⟨pushed, hpushed, h⟩ := bind_eq_ok.mp h
    rw [level_wellFormed hinstants hpushed h]
    · constructor
      · rintro hnodup ⟨at', hat, hmeet⟩
        obtain ⟨here, hhere⟩ := (flatMapM_eq_flatMap hpushed).2 at' hat
        exact (rates_nodup_iff hhere hlabels).mp (hnodup at' hat here hhere) hmeet
      · intro hmeet at' hat here hhere
        exact (rates_nodup_iff hhere hlabels).mpr fun hboth => hmeet ⟨at', hat, hboth⟩
    · intro at' _ here hhere p hp
      obtain ⟨rfl, hall⟩ := flatMapM_eq_flatMap hhere
      obtain ⟨item, hitem, hp⟩ := mem_flatMap.mp hp
      obtain ⟨one, hone⟩ := hall item hitem
      rw [hone] at hp
      exact (rateAt_key hone).2 p hp

/-- A quantile is well formed. -/
theorem quantile_wellFormed {phi : F64} {windowNs : ℕ} {grouping : Grouping} (hinstants : instants.Pairwise (· < ·))
    (h : evalPromAt regex arith series histograms instants lookbackNs limits depth
      (.histogramQuantile phi matchers windowNs grouping) = .ok out) :
    WellFormed instants out := by
  rw [evalPromAt] at h
  split at h
  · exact absurd h (by simp)
  · unfold evalHistogramQuantiles at h
    split at h
    · exact absurd h (by simp)
    · obtain ⟨pushed, hpushed, h⟩ := bind_eq_ok.mp h
      refine (level_wellFormed hinstants hpushed h fun at' _ here hhere p hp => ?_).mpr
        fun at' _ here hhere => ?_
      · obtain ⟨rates, hrates, hhere⟩ := bind_eq_ok.mp hhere
        obtain ⟨rfl, hall⟩ := flatMapM_eq_flatMap hhere
        obtain ⟨group, hgroup, hp⟩ := mem_flatMap.mp hp
        obtain ⟨one, hone⟩ := hall group hgroup
        rw [hone] at hp
        obtain ⟨result, _, hone⟩ := bind_eq_ok.mp hone
        rw [← Except.ok.inj hone] at hp
        rw [mem_singleton.mp hp]
      · obtain ⟨rates, hrates, hhere⟩ := bind_eq_ok.mp hhere
        refine (pairwise_map.mpr (groupByLabels_nodup rates)).sublist (keys_sublist hhere fun group _ one hone => ?_)
        obtain ⟨result, _, hone⟩ := bind_eq_ok.mp hone
        rw [← Except.ok.inj hone]
        exact Sublist.refl _

/-- An aggregation is well formed. -/
theorem aggregate_wellFormed {op : PromAggregate} {grouping : Grouping} {input : PromExpr}
    (hinstants : instants.Pairwise (· < ·))
    (h : evalPromAt regex arith series histograms instants lookbackNs limits depth
      (.aggregate op grouping input) = .ok out) :
    WellFormed instants out ∧
      ∃ inner, evalPromAt regex arith series histograms instants lookbackNs limits (depth + 1) input =
        .ok inner := by
  rw [evalPromAt] at h
  split at h
  · exact absurd h (by simp)
  · obtain ⟨inner, hinner, h⟩ := bind_eq_ok.mp h
    refine ⟨(boundedSeries_wellFormed hinstants (fun at' _ p hp => ?_) h).mpr fun at' _ => ?_, inner, hinner⟩
    · obtain ⟨lv, _, rfl⟩ := mem_map.mp hp
      rfl
    · rw [map_map]
      unfold aggregateInstant
      rw [map_map]
      exact pairwise_map.mpr (groupByLabels_nodup _)

/-- The results at all levels are well-formed unless two rates meet. -/
theorem levels_iff (hinstants : instants.Pairwise (· < ·)) (hlabels : (series.map PromSeries.labels).Nodup)
    (h : evalPromAt regex arith series histograms instants lookbackNs limits depth expr = .ok out) :
    LevelsWellFormed regex arith series limits histograms lookbackNs instants depth expr ↔
      ¬RatesMeet regex arith series instants expr := by
  induction expr generalizing depth out with
  | selector matchers => exact iff_of_true ⟨out, h, selector_wellFormed hinstants hlabels h⟩ not_false
  | histogramQuantile phi matchers windowNs grouping =>
    exact iff_of_true ⟨out, h, quantile_wellFormed hinstants h⟩ not_false
  | rate matchers windowNs =>
    rw [← rate_wellFormed hinstants hlabels h]
    constructor
    · exact fun hlevels => wellFormed_of_levels hlevels h
    · exact fun hformed => ⟨out, h, hformed⟩
  | aggregate op grouping input ih =>
    obtain ⟨hformed, inner, hinner⟩ := aggregate_wellFormed hinstants h
    constructor
    · exact fun hlevels => (ih hinner).mp hlevels.2.2
    · intro hmeet
      have hlevels := (ih hinner).mpr hmeet
      exact ⟨⟨out, h, hformed⟩, ⟨inner, hinner, counted_of_wellFormed (wellFormed_of_levels hlevels hinner)⟩,
        hlevels⟩

/-- The results of an expression over series with label sets of their own are well-formed at all levels, if
and only if no two rates of its leaf meet in one label set at an instant. -/
theorem well_formed_iff {range : EvalRange} (hlabels : (series.map PromSeries.labels).Nodup)
    (h : evalPromReference regex arith expr series histograms range limits = .ok out) :
    ∃ instants, range.instants limits = .ok instants ∧
      (LevelsWellFormed regex arith series limits histograms range.lookbackNs instants 0 expr ↔
        ¬RatesMeet regex arith series instants expr) := by
  obtain ⟨instants, hinstants, h⟩ := bind_eq_ok.mp h
  exact ⟨instants, hinstants, levels_iff (instants_ordered hinstants) hlabels h⟩

end

/-! ## Two names -/

/-- The arithmetic of doubles on the operands of a rate over two seconds. -/
def secondArith : Arith where
  add a b := if b = 0 then a else b
  sub a _ := a
  mul a b := if a = natAsF64 1 then b else 0
  div a b :=
    if a = b then natAsF64 1
    else if a = 0 then 0
    else if a = natAsF64 2000000000 then natAsF64 2
    else 0x3fe0000000000000
  min a _ := a
  max a _ := a

def twoSeconds : EvalRange := ⟨2000000000, 2000000000, 1000000000, 1⟩

/-- A counter of one name that grows by one in the second second. -/
def counterNamed (name : Text) : PromSeries :=
  ⟨[("__name__".toList, name)], [⟨1000000000, 0⟩, ⟨2000000000, natAsF64 1⟩]⟩

/-- The rates of two counters that differ in their name only are two values of one series at one instant, of
which an aggregation takes the first. -/
theorem two_names_meet :
    ([counterNamed "a".toList, counterNamed "b".toList].map PromSeries.labels).Nodup ∧
    evalPromReference (fun _ => none) secondArith (.rate [] 2000000000)
        [counterNamed "a".toList, counterNamed "b".toList] [] twoSeconds EvalLimits.default =
      .ok [⟨[], [⟨2000000000, 0x3fe0000000000000⟩, ⟨2000000000, 0x3fe0000000000000⟩]⟩] ∧
    evalPromReference (fun _ => none) secondArith (.aggregate .count (.by []) (.rate [] 2000000000))
        [counterNamed "a".toList, counterNamed "b".toList] [] twoSeconds EvalLimits.default =
      .ok [⟨[], [⟨2000000000, natAsF64 1⟩]⟩] ∧
    ¬WellFormed [2000000000]
      [⟨[], [⟨2000000000, 0x3fe0000000000000⟩, ⟨2000000000, 0x3fe0000000000000⟩]⟩] := by
  refine ⟨by decide +kernel, by decide +kernel, by decide +kernel, fun h => ?_⟩
  have hordered := h.ordered _ mem_cons_self
  exact absurd hordered (by decide)

/-- The counter of a host. -/
def counterOn (host : Text) : PromSeries :=
  { counterNamed "a".toList with labels := [("__name__".toList, "a".toList), ("host".toList, host)] }

/-- The rates of one counter on two hosts do not meet, and each is a series. -/
theorem one_name_apart :
    ∃ instants, twoSeconds.instants EvalLimits.default = .ok instants ∧
      LevelsWellFormed (fun _ => none) secondArith [counterOn ['x'], counterOn ['y']] EvalLimits.default [] 1 instants
        0 (.rate [] 2000000000) ∧
      ¬RatesMeet (fun _ => none) secondArith [counterOn ['x'], counterOn ['y']] instants (.rate [] 2000000000) := by
  have heval : evalPromReference (fun _ => none) secondArith (.rate [] 2000000000)
      [counterOn ['x'], counterOn ['y']] [] twoSeconds EvalLimits.default =
      .ok [⟨[("host".toList, ['x'])], [⟨2000000000, 0x3fe0000000000000⟩]⟩,
        ⟨[("host".toList, ['y'])], [⟨2000000000, 0x3fe0000000000000⟩]⟩] := by decide +kernel
  obtain ⟨instants, hinstants, hiff⟩ := well_formed_iff (by decide) heval
  have hlevels : LevelsWellFormed (fun _ => none) secondArith [counterOn ['x'], counterOn ['y']] EvalLimits.default []
      1 instants 0 (.rate [] 2000000000) := by
    obtain rfl : [2000000000] = instants := Except.ok.inj hinstants
    exact ⟨_, heval, by decide, by decide, by decide⟩
  exact ⟨instants, hinstants, hlevels, hiff.mp hlevels⟩

end Imbh.Lgtm
