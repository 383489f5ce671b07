import Imbh.Attrstats.Acc

/-!
# A unit with room for all

What a unit would keep if no sketch dropped anything: a dictionary of keys, each with a dictionary of values. It
depends on the observations alone, and it determines the unit, whatever the sketches dropped.
-/

namespace Imbh.Attrstats

open Lib Imbh.Core Option Function

/-- The ordinals at which a unit counts. -/
structure Position where
  seg : Option ℕ
  curWindow : List (Option ℕ)

def Acc.position {κ : Type} (acc : Acc κ) : Position := ⟨acc.curSeg, acc.levels.map Level.curWindow⟩

section

variable {κ : Type} [LinearOrder κ] [OrderTop κ]

/-- What a unit keeps that drops nothing. -/
abbrev Totals (κ : Type) : Type := Dictionary κ (KeyAcc (Dictionary κ ValueAcc))

variable (hash : Text → κ)

/-- `Acc::observe`, with room for the key and the value. -/
def Totals.observe (pos : Position) (totals : Totals κ) (o : Observation) : Totals κ :=
  totals.record (hash o.name) (.new o.name o.scope fun _ => none)
    (KeyAcc.observe pos.seg o fun values =>
      values.record (hash o.text) (.new pos.curWindow.length) (ValueAcc.observe pos.seg pos.curWindow))

/-! ## The unit follows its totals -/

/-- The same key, the values of which are in a sketch. -/
structure KeyAcc.Follows (key : KeyAcc (SampledMap κ ValueAcc)) (valueCap : ℕ) (total : KeyAcc (Dictionary κ ValueAcc)) :
    Prop where
  values : Views (max valueCap 1) total.values key.values
  rest : total = { key with values := total.values }

structure Acc.Follows (acc : Acc κ) (keyCap : ℕ) (totals : Totals κ) : Prop where
  keys : ∃ dict, Views (max keyCap 1) dict acc.keys ∧ 
    ∀ k, Option.Rel (fun total key => KeyAcc.Follows key acc.valueCap total) (totals k) (dict k)

/-- A key is determined by what it follows. -/
theorem KeyAcc.Follows.eq {valueCap : ℕ} {total : KeyAcc (Dictionary κ ValueAcc)} {key key' : KeyAcc (SampledMap κ ValueAcc)}
    (h : key.Follows valueCap total) (h' : key'.Follows valueCap total) : key = key' := by
  have hvalues := h.values.eq h'.values
  have hrest := h.rest.symm.trans h'.rest
  cases key
  cases key'
  simp only [KeyAcc.mk.injEq, and_true] at hrest hvalues ⊢
  tauto

theorem KeyAcc.Follows.observe {valueCap : ℕ} {total : KeyAcc (Dictionary κ ValueAcc)} {key : KeyAcc (SampledMap κ ValueAcc)}
    (h : key.Follows valueCap total) (pos : Position) (o : Observation) :
    (key.observe pos.seg o (observeValue hash pos.seg pos.curWindow o.text)).Follows valueCap
      (total.observe pos.seg o fun values =>
        values.record (hash o.text) (.new pos.curWindow.length) (ValueAcc.observe pos.seg pos.curWindow)) where
  values := h.values.observe (lt_max_of_lt_right one_pos) _ _ _
  rest := by
    rw [h.rest]
    rfl

namespace Acc

variable {keyCap : ℕ} {totals : Totals κ} {acc acc' : Acc κ}

/-- Accumulators that follow the same totals have the same keys. -/
theorem Follows.keys_eq (h : acc.Follows keyCap totals) (h' : acc'.Follows keyCap totals) (hcap : acc.valueCap = acc'.valueCap) :
    acc.keys = acc'.keys := by
  obtain ⟨dict, hviews, hkeys⟩ := h.keys
  obtain ⟨dict', hviews', hkeys'⟩ := h'.keys
  have hdict : dict = dict' := by
    funext k
    have hk := hkeys k
    have hk' := hkeys' k
    rw [← hcap] at hk'
    generalize totals k = total, dict k = found, dict' k = found' at hk hk'
    cases hk with
    | none => cases hk'; rfl
    | some hkey =>
      cases hk' with
      | some hkey' => rw [hkey.eq hkey']
  subst hdict
  exact hviews.eq hviews'

/-- An observation takes the accumulator and its totals on together. -/
theorem Follows.observe (h : acc.Follows keyCap totals) (o : Observation) :
    (acc.observe hash o).Follows keyCap (totals.observe hash acc.position o) := by
  obtain ⟨dict, hviews, hkeys⟩ := h.keys
  refine ⟨_, hviews.observe (lt_max_of_lt_right one_pos) (hash o.name) _ _, fun k => ?_⟩
  by_cases hk : k = hash o.name
  · subst hk
    rw [Totals.observe, Dictionary.record, Dictionary.record, update_self, update_self]
    refine .some (KeyAcc.Follows.observe hash ?_ acc.position o)
    -- a key that is new follows one that is
    have hkey := hkeys (hash o.name)
    generalize totals (hash o.name) = total, dict (hash o.name) = found at hkey
    cases hkey with
    | none => exact ⟨.new acc.valueCap, rfl⟩
    | some hkey => exact hkey
  · rw [Totals.observe, Dictionary.record, Dictionary.record, update_of_ne hk, update_of_ne hk]
    exact hkeys k

/-- Only the keys are changed. -/
theorem foldl_observe_rest (observations : List Observation) (acc : Acc κ) :
    observations.foldl (Acc.observe hash) acc = { acc with keys := (observations.foldl (Acc.observe hash) acc).keys } := by
  induction observations generalizing acc with
  | nil => rfl
  | cons o observations ih =>
    rw [List.foldl_cons, ih]
    rfl

theorem Follows.foldl_observe (h : acc.Follows keyCap totals) (observations : List Observation) :
    (observations.foldl (Acc.observe hash) acc).Follows keyCap
      (observations.foldl (Totals.observe hash acc.position) totals) := by
  induction observations generalizing acc totals with
  | nil => exact h
  | cons o observations ih => exact ih (h.observe hash o)

/-- Observations that have the same totals leave the same unit. -/
theorem Follows.foldl_observe_congr (h : acc.Follows keyCap totals) {observations observations' : List Observation}
    (heq : observations.foldl (Totals.observe hash acc.position) totals =
      observations'.foldl (Totals.observe hash acc.position) totals) :
    observations.foldl (Acc.observe hash) acc = observations'.foldl (Acc.observe hash) acc := by
  have hleft := h.foldl_observe hash observations
  have hright := h.foldl_observe hash observations'
  rw [← heq] at hright
  have hrest := foldl_observe_rest hash observations acc
  have hrest' := foldl_observe_rest hash observations' acc
  have hcap : (observations.foldl (Acc.observe hash) acc).valueCap = (observations'.foldl (Acc.observe hash) acc).valueCap := by
    rw [hrest, hrest']
  rw [hrest, hrest', hleft.keys_eq hright hcap]

end Acc

end

/-! ## A pair that is observed again -/

/-- Observing a value twice at one position is observing it once. -/
theorem ValueAcc.observe_observe (v : ValueAcc) (pos : Position) :
    (v.observe pos.seg pos.curWindow).observe pos.seg pos.curWindow = v.observe pos.seg pos.curWindow := by
  have htouch (level : ValueLevel) (current : Option ℕ) : (level.touch current).touch current = level.touch current := by
    unfold ValueLevel.touch
    split <;> simp_all
  have hlevels (levels : List ValueLevel) (current : List (Option ℕ)) :
      List.zipWith ValueLevel.touch (List.zipWith ValueLevel.touch levels current) current =
        List.zipWith ValueLevel.touch levels current := by
    induction levels generalizing current with
    | nil => rfl
    | cons level levels ih =>
      cases current with
      | nil => rfl
      | cons c current => simp [htouch, ih]
  unfold ValueAcc.observe
  simp [hlevels]

/-- Rows are added to the counts of a key. -/
def KeyAcc.bump {M : Type} (o : Observation) (key : KeyAcc M) : KeyAcc M :=
  key.observe key.lastSeg { o with newRun := false } id

theorem KeyAcc.bump_observe {M : Type} (key : KeyAcc M) (seg : Option ℕ) (o o' : Observation) (record : M → M) :
    (key.observe seg o' record).bump o = (key.bump o).observe seg o' record := by
  simp only [KeyAcc.bump, KeyAcc.observe, KeyAcc.mk.injEq, true_and, id, ne_eq, not_true_eq_false, if_false, Bool.false_eq_true,
    and_true]
  refine ⟨by omega, ?_, ?_, ?_⟩
  · split <;> split <;> omega
  · split <;> split <;> omega
  · split <;> split <;> omega

theorem KeyAcc.bump_observe_self {M : Type} (key : KeyAcc M) (seg : Option ℕ) (o : Observation) (a c : ℕ) (record : M → M) :
    (key.observe seg { o with count := a } record).bump { o with count := c } =
      key.observe seg { o with count := a + c } record := by
  obtain ⟨attrScope, name, value, text, count, newRun⟩ := o
  cases value <;> simp [KeyAcc.bump, KeyAcc.observe, mul_add, add_assoc]

section

variable {κ : Type} [LinearOrder κ] (hash : Text → κ)

/-- The pair was observed in the segment that is going on. -/
def Totals.Settled (pos : Position) (o : Observation) (totals : Totals κ) : Prop :=
  ∃ key v, totals (hash o.name) = some key ∧ key.lastSeg = pos.seg ∧ key.values (hash o.text) = some v ∧
    v.observe pos.seg pos.curWindow = v

def Totals.bump (totals : Totals κ) (o : Observation) : Totals κ :=
  update totals (hash o.name) ((totals (hash o.name)).map (KeyAcc.bump o))

namespace Totals

variable {pos : Position} {totals : Totals κ} {o o' : Observation}

/-- After its first observation a pair only adds to the counts of its key. -/
theorem Settled.observe_eq (h : totals.Settled hash pos o) (hrun : o.newRun = false) :
    totals.observe hash pos o = totals.bump hash o := by
  obtain ⟨key, v, hkey, hseg, hv, hagain⟩ := h
  have hvalues : key.values.record (hash o.text) (.new pos.curWindow.length) (ValueAcc.observe pos.seg pos.curWindow) =
      key.values := by
    rw [Dictionary.record, hv, getD_some, hagain, ← hv, update_eq_self]
  rw [observe, bump, Dictionary.record, hkey, getD_some, map_some, KeyAcc.observe, KeyAcc.bump, KeyAcc.observe,
    hvalues, hseg, hrun]
  rfl

theorem settled_observe (hname : o'.name = o.name) (htext : o'.text = o.text) :
    (totals.observe hash pos o').Settled hash pos o := by
  rw [Settled, observe, Dictionary.record, hname, htext, update_self]
  exact ⟨_, _, rfl, rfl, update_self .., ValueAcc.observe_observe _ pos⟩

theorem isSome_observe {k : κ} (h : (totals k).isSome) : (totals.observe hash pos o k).isSome := by
  rw [observe, Dictionary.record]
  by_cases hk : k = hash o.name
  · rw [hk, update_self]
    rfl
  · rwa [update_of_ne hk]

/-- What is settled stays so when something else is observed. -/
theorem Settled.observe (h : totals.Settled hash pos o) : (totals.observe hash pos o').Settled hash pos o := by
  obtain ⟨key, v, hkey, hseg, hv, hagain⟩ := h
  by_cases hname : hash o'.name = hash o.name
  · have hfound : totals.observe hash pos o' (hash o.name) = some (key.observe pos.seg o' fun values =>
        values.record (hash o'.text) (.new pos.curWindow.length) (ValueAcc.observe pos.seg pos.curWindow)) := by
      rw [Totals.observe, Dictionary.record, hname, update_self, hkey, getD_some]
    refine ⟨_, v, hfound, rfl, ?_, hagain⟩
    simp only [KeyAcc.observe, Dictionary.record]
    by_cases htext : hash o.text = hash o'.text
    · rw [htext, update_self, ← htext, hv, getD_some, hagain]
    · rw [update_of_ne htext, hv]
  · refine ⟨key, v, ?_, hseg, hv, hagain⟩
    rw [Totals.observe, Dictionary.record, update_of_ne (Ne.symm hname), hkey]

/-- The counts of a key grow at any time after it was made. -/
theorem bump_observe (h : (totals (hash o.name)).isSome) :
    (totals.observe hash pos o').bump hash o = (totals.bump hash o).observe hash pos o' := by
  obtain ⟨key, hkey⟩ := isSome_iff_exists.mp h
  by_cases hname : hash o.name = hash o'.name
  · rw [hname] at hkey
    simp only [observe, bump, Dictionary.record, hname, update_self, update_idem, hkey, getD_some,
      map_some, KeyAcc.bump_observe]
  · rw [observe, observe, bump, bump, Dictionary.record, Dictionary.record, update_of_ne hname,
      update_of_ne (Ne.symm hname), update_comm hname]

theorem bump_observe_self (a c : ℕ) : (totals.observe hash pos { o with count := a }).bump hash { o with count := c } =
    totals.observe hash pos { o with count := a + c } := by
  simp only [observe, bump, Dictionary.record, update_self, update_idem, map_some,
    KeyAcc.bump_observe_self]

theorem bump_foldl_observe (observations : List Observation) (h : (totals (hash o.name)).isSome) :
    (observations.foldl (observe hash pos) totals).bump hash o = observations.foldl (observe hash pos) (totals.bump hash o) := by
  induction observations generalizing totals with
  | nil => rfl
  | cons o' observations ih =>
    rw [List.foldl_cons, ih (isSome_observe hash h), bump_observe hash h]
    rfl

theorem Settled.foldl_observe (h : totals.Settled hash pos o) (observations : List Observation) :
    (observations.foldl (Totals.observe hash pos) totals).Settled hash pos o := by
  induction observations generalizing totals with
  | nil => exact h
  | cons o' observations ih => exact ih (h.observe hash)

/-- Pairs that are observed again, in no new run, are observed once with the sum of the counts. -/
theorem observe_again (pairs : List Observation) (a c : ℕ) (totals : Totals κ) :
    (pairs.map fun o => { o with count := c, newRun := false }).foldl (observe hash pos)
        ((pairs.map fun o => { o with count := a }).foldl (observe hash pos) totals) =
      (pairs.map fun o => { o with count := a + c }).foldl (observe hash pos) totals := by
  induction pairs generalizing totals with
  | nil => rfl
  | cons o pairs ih =>
    simp only [List.map_cons, List.foldl_cons]
    have hsettled : (totals.observe hash pos { o with count := a }).Settled hash pos { o with count := c, newRun := false } :=
      settled_observe hash rfl rfl
    obtain ⟨key, -, hkey, -⟩ := id hsettled
    -- the second observation of the first pair is moved to its first
    rw [(hsettled.foldl_observe hash _).observe_eq hash rfl, bump_foldl_observe hash _ (by rw [hkey]; rfl)]
    have hmerge : (totals.observe hash pos { o with count := a }).bump hash { o with count := c, newRun := false } =
        totals.observe hash pos { o with count := a + c } := bump_observe_self hash a c
    rw [hmerge, ih]

/-! ## Runs of a key -/

/-- The runs that are counted under a hash. -/
def runsAt (totals : Totals κ) (k : κ) : ℕ := ((totals k).map KeyAcc.runs).getD 0

theorem runsAt_observe (k : κ) :
    (totals.observe hash pos o).runsAt k = totals.runsAt k + if o.newRun && hash o.name = k then 1 else 0 := by
  rw [observe, Dictionary.record, runsAt, runsAt]
  by_cases hk : hash o.name = k
  · subst hk
    rw [update_self]
    rcases totals (hash o.name) with _ | key <;> cases hrun : o.newRun <;> simp [KeyAcc.observe, KeyAcc.new, hrun]
  · simp [update_of_ne (Ne.symm hk), hk]

theorem runsAt_foldl_observe (observations : List Observation) (totals : Totals κ) (k : κ) :
    (observations.foldl (observe hash pos) totals).runsAt k =
      totals.runsAt k + observations.countP fun o => o.newRun && hash o.name = k := by
  induction observations generalizing totals with
  | nil => simp
  | cons o observations ih =>
    rw [List.foldl_cons, ih, runsAt_observe, List.countP_cons]
    omega

/-- Only the names that are observed have totals. -/
theorem mem_of_isSome (observations : List Observation) {totals : Totals κ} {k : κ}
    (h : (observations.foldl (observe hash pos) totals k).isSome) :
    (totals k).isSome ∨ k ∈ observations.map fun o => hash o.name := by
  induction observations generalizing totals with
  | nil => exact .inl h
  | cons o observations ih =>
    rcases ih h with hsome | hmem
    · by_cases hk : k = hash o.name
      · exact .inr (by simp [hk])
      · rw [observe, Dictionary.record, update_of_ne hk] at hsome
        exact .inl hsome
    · exact .inr (List.mem_cons_of_mem _ hmem)

end Totals

end

section

variable {κ : Type} [LinearOrder κ] [OrderTop κ] (hash : Text → κ)

/-- A unit that was not scanned into before, and has room, has the runs that were observed. -/
theorem Acc.Follows.runs_of_room {keyCap : ℕ} {acc : Acc κ} (h : acc.Follows keyCap fun _ => none)
    (observations : List Observation) (hroom : observations.length ≤ keyCap) (k : κ) :
    ((valueAt (observations.foldl (Acc.observe hash) acc).keys.entries k).map KeyAcc.runs).getD 0 =
      observations.countP fun o => o.newRun && hash o.name = k := by
  obtain ⟨dict, hviews, hkeys⟩ := (h.foldl_observe hash observations).keys
  have hruns : Totals.runsAt (observations.foldl (Totals.observe hash acc.position) fun _ => none) k = _ :=
    Totals.runsAt_foldl_observe hash observations (fun _ => none) k
  have hin (x : κ) (hx : (dict x).isSome) : x ∈ (observations.map fun o => hash o.name).toFinset := by
    have htotal : (observations.foldl (Totals.observe hash acc.position) (fun _ => none) x).isSome := by
      have hrel := hkeys x
      generalize dict x = found, observations.foldl (Totals.observe hash acc.position) (fun _ => none) x = total at hx hrel ⊢
      cases hrel with
      | some _ => rfl
      | none => exact absurd hx (by simp)
    rcases Totals.mem_of_isSome hash observations htotal with hsome | hmem
    · exact absurd hsome (by simp)
    · exact List.mem_toFinset.mpr hmem
  have hcard : (observations.map fun o => hash o.name).toFinset.card ≤ max keyCap 1 :=
    (List.toFinset_card_le _).trans (by rw [List.length_map]; omega)
  rw [hviews.valueAt_of_room hin hcard k]
  rw [Totals.runsAt, Totals.runsAt] at hruns
  have hrel := hkeys k
  generalize dict k = found, observations.foldl (Totals.observe hash acc.position) (fun _ => none) k = total at hrel hruns
  cases hrel with
  | none => simpa using hruns
  | some hkey =>
    rw [hkey.rest] at hruns
    simpa using hruns

end

end Imbh.Attrstats
