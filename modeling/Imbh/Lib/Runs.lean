import Mathlib.Tactic.Linarith

/-!
# Runs of a partial step function

A system is a partial step function `step : σ → ε → Option σ`: `none` means that the event is
not enabled in the state. A run is the left fold of the step function over a list of events.

* `run step s es` — the state the events lead to, when every one of them is enabled.
* `Guarded step ok s es` — every event of the run is met in a state in which `ok` holds. It is
  a condition on inputs and on the states *before* each step.

Everything is stated for arbitrary state and event types.
-/

namespace Imbh.Lib

variable {σ ε : Type*}

/-- The state a list of events leads to from `s`; `none` when some event is not enabled. -/
def run (step : σ → ε → Option σ) : σ → List ε → Option σ
  | s, [] => some s
  | s, e :: es =>
      match step s e with
      | none => none
      | some s' => run step s' es

/-- Every event of the list is met in a state in which `ok` holds. -/
def Guarded (step : σ → ε → Option σ) (ok : σ → ε → Prop) : σ → List ε → Prop
  | _, [] => True
  | s, e :: es => ok s e ∧
      match step s e with
      | none => True
      | some s' => Guarded step ok s' es

variable {step : σ → ε → Option σ} {ok : σ → ε → Prop} {es : List ε} {s : σ}

@[simp] theorem run_nil (s : σ) : run step s [] = some s := rfl

/-- The run of `e :: es`, in `Option.bind` form. -/
theorem run_cons (s : σ) (e : ε) (es : List ε) :
    run step s (e :: es) = (step s e).bind fun s' => run step s' es := by
  simp only [run]
  cases step s e <;> rfl

/-- A run of `e :: es` is a step followed by a run of `es`. -/
theorem run_cons_eq_some {s' : σ} {e : ε} :
    run step s (e :: es) = some s' ↔ ∃ m, step s e = some m ∧ run step m es = some s' := by
  rw [run_cons, Option.bind_eq_some_iff]

/-- Runs compose. -/
theorem run_append (s : σ) (es fs : List ε) :
    run step s (es ++ fs) = (run step s es).bind fun m => run step m fs := by
  induction es generalizing s with
  | nil => rfl
  | cons e es ih =>
      rw [List.cons_append, run_cons, run_cons]
      cases step s e with
      | none => rfl
      | some m => exact ih m

/-- A run one event longer is a run followed by a step. -/
theorem run_concat_eq_some {s' : σ} {e : ε} :
    run step s (es ++ [e]) = some s' ↔ ∃ m, run step s es = some m ∧ step m e = some s' := by
  rw [run_append, Option.bind_eq_some_iff]
  refine exists_congr fun m => and_congr_right fun _ => ?_
  rw [run_cons]
  cases step m e <;> simp

/-- Guardedness of `e :: es`, along the step actually taken. -/
theorem guarded_cons {e : ε} :
    Guarded step ok s (e :: es) ↔ ok s e ∧ ∀ m, step s e = some m → Guarded step ok m es := by
  simp only [Guarded]
  cases step s e <;> simp

/-- Whether a run is guarded can be computed when the condition can. -/
instance Guarded.decidable [∀ s e, Decidable (ok s e)] :
    (s : σ) → (es : List ε) → Decidable (Guarded step ok s es)
  | _, [] => .isTrue trivial
  | s, e :: es =>
      have : Decidable (match step s e with
          | none => True
          | some s' => Guarded step ok s' es) :=
        match step s e with
        | none => .isTrue trivial
        | some s' => Guarded.decidable s' es
      inferInstanceAs (Decidable (ok s e ∧ _))

/-- A run without a condition is guarded by the trivial one. -/
theorem guarded_true (s : σ) (es : List ε) : Guarded step (fun _ _ => True) s es := by
  induction es generalizing s with
  | nil => trivial
  | cons e es ih => exact guarded_cons.mpr ⟨trivial, fun m _ => ih m⟩

/-- A condition on every event of a run, next to one on the states it meets. -/
theorem Guarded.and_forall {P : ε → Prop} (hg : Guarded step ok s es) (h : ∀ e ∈ es, P e) :
    Guarded step (fun s e => ok s e ∧ P e) s es := by
  induction es generalizing s with
  | nil => trivial
  | cons e es ih =>
      obtain ⟨he, hes⟩ := guarded_cons.mp hg
      refine guarded_cons.mpr ⟨⟨he, h e List.mem_cons_self⟩, fun m hm => ih (hes m hm) ?_⟩
      exact fun x hx => h x (List.mem_cons_of_mem _ hx)

/-- The first part of a guarded run is guarded. -/
theorem Guarded.of_append {fs : List ε} (h : Guarded step ok s (es ++ fs)) : Guarded step ok s es := by
  induction es generalizing s with
  | nil => trivial
  | cons e es ih =>
      obtain ⟨he, hes⟩ := guarded_cons.mp h
      exact guarded_cons.mpr ⟨he, fun m hm => ih (hes m hm)⟩

/-- The condition holds before the last event of a guarded run. -/
theorem Guarded.last {m : σ} {e : ε} (h : Guarded step ok s (es ++ [e])) (hrun : run step s es = some m) :
    ok m e := by
  induction es generalizing s with
  | nil =>
      cases hrun
      exact (guarded_cons.mp h).1
  | cons e' es ih =>
      obtain ⟨s', hs', hrun'⟩ := run_cons_eq_some.mp hrun
      exact ih ((guarded_cons.mp h).2 s' hs') hrun'

/-- **The invariant rule.** What the initial state satisfies and every guarded step preserves
holds in every state that a guarded run reaches. -/
theorem run_induction (Inv : σ → Prop) (hstep : ∀ s e s', Inv s → ok s e → step s e = some s' → Inv s') {s' : σ}
    (hs : Inv s) (hg : Guarded step ok s es) (hrun : run step s es = some s') : Inv s' := by
  induction es generalizing s with
  | nil =>
      cases hrun
      exact hs
  | cons e es ih =>
      obtain ⟨m, hm, hrun'⟩ := run_cons_eq_some.mp hrun
      obtain ⟨he, hes⟩ := guarded_cons.mp hg
      exact ih (hstep s e m hs he hm) (hes m hm) hrun'

/-- The invariant rule for runs without a condition. -/
theorem run_invariant (Inv : σ → Prop) (hstep : ∀ s e s', Inv s → step s e = some s' → Inv s') {s' : σ} (hs : Inv s)
    (hrun : run step s es = some s') : Inv s' :=
  run_induction Inv (fun s e s' hi _ h => hstep s e s' hi h) hs (guarded_true s es) hrun

/-- **Forward simulation.** Related states that step to related states run to related states. -/
theorem run_simulation {τ : Type*} {step' : τ → ε → Option τ} (R : σ → τ → Prop)
    (hstep : ∀ s u e s', R s u → step s e = some s' → ∃ u', step' u e = some u' ∧ R s' u') {t : σ} {u : τ}
    (hs : R s u) (hrun : run step s es = some t) : ∃ v, run step' u es = some v ∧ R t v := by
  induction es generalizing s u with
  | nil =>
      cases hrun
      exact ⟨u, rfl, hs⟩
  | cons e es ih =>
      obtain ⟨m, hm, hrun'⟩ := run_cons_eq_some.mp hrun
      obtain ⟨m', hm', hR⟩ := hstep s u e m hs hm
      obtain ⟨v, hv, hRv⟩ := ih hR hrun'
      exact ⟨v, run_cons_eq_some.mpr ⟨m', hm', hv⟩, hRv⟩

end Imbh.Lib
