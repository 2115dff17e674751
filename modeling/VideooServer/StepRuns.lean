import Mathlib.Data.Option.Basic
import Mathlib.Tactic.Common

/-!
# Runs of a step function

A system is a partial step function: an action that is not enabled has no
successor. Runs execute a list of actions. Invariants are carried along
runs by one induction, with or without a condition that every step of the
run meets.
-/

namespace VideooServer.StepRuns

variable {σ α : Type*} {step : σ → α → Option σ}

/-- Execute actions in order, none if one of them is not enabled. -/
def run (step : σ → α → Option σ) (s : σ) : List α → Option σ
  | [] => some s
  | a :: as => (step s a).bind fun t => run step t as

/-- Every step of a run meets a condition on the state it starts from. -/
def Along (step : σ → α → Option σ) (cond : σ → α → Prop) (s : σ) : List α → Prop
  | [] => True
  | a :: as => cond s a ∧ ∀ t, step s a = some t → Along step cond t as

variable {s t u : σ} {a : α} {as bs : List α} {P : σ → Prop} {cond : σ → α → Prop}

/-- A run begins with its first step. -/
theorem run_cons (h : step s a = some t) (as : List α) :
    run step s (a :: as) = run step t as := by
  rw [run, h, Option.bind_some]

/-- A run that succeeds begins with a step that does. -/
theorem run_cons_eq_some (h : run step s (a :: as) = some u) :
    ∃ t, step s a = some t ∧ run step t as = some u :=
  Option.bind_eq_some_iff.mp h

/-- Runs are composed. -/
theorem run_append (step : σ → α → Option σ) (s : σ) (as bs : List α) :
    run step s (as ++ bs) = (run step s as).bind fun t => run step t bs := by
  induction as generalizing s with
  | nil => rfl
  | cons a as ih =>
    rw [List.cons_append, run, run, Option.bind_assoc]
    congr 1
    funext t
    exact ih t

/-- A composed run goes through a state between its parts. -/
theorem run_append_eq_some (h : run step s (as ++ bs) = some u) :
    ∃ t, run step s as = some t ∧ run step t bs = some u := by
  rw [run_append] at h
  exact Option.bind_eq_some_iff.mp h

/-- Runs that meet in a state are composed. -/
theorem run_trans (h : run step s as = some t) (h' : run step t bs = some u) :
    run step s (as ++ bs) = some u := by
  rw [run_append, h, Option.bind_some, h']

/-- When every step of one system, for the actions of a run, is a step of
another one, the run is a run of the other one. -/
theorem run_map {τ β : Type*} (step' : τ → β → Option τ) (embed : σ → τ) (label : α → β)
    (hstep : ∀ a ∈ as, ∀ s t, step s a = some t →
      step' (embed s) (label a) = some (embed t)) (h : run step s as = some u) :
    run step' (embed s) (as.map label) = some (embed u) := by
  induction as generalizing s with
  | nil =>
    cases h
    rfl
  | cons a as ih =>
    obtain ⟨t, ht, h⟩ := run_cons_eq_some h
    rw [List.map_cons, run_cons (hstep a (by simp) s t ht)]
    exact ih (fun b hb => hstep b (by simp [hb])) h

/-- A property that every step keeps holds at the end of a run. -/
theorem run_invariant (hstep : ∀ s a t, P s → step s a = some t → P t) (hs : P s)
    (h : run step s as = some t) : P t := by
  induction as generalizing s with
  | nil =>
    cases h
    exact hs
  | cons a as ih =>
    obtain ⟨u, hu, h⟩ := run_cons_eq_some h
    exact ih (hstep s a u hs hu) h

/-- A property that every step keeps under a condition holds at the end of
a run whose steps all meet it. -/
theorem run_invariant_along (hstep : ∀ s a t, P s → cond s a → step s a = some t → P t)
    (hs : P s) (hcond : Along step cond s as) (h : run step s as = some t) : P t := by
  induction as generalizing s with
  | nil =>
    cases h
    exact hs
  | cons a as ih =>
    obtain ⟨u, hu, h⟩ := run_cons_eq_some h
    exact ih (hstep s a u hs hcond.1 hu) (hcond.2 u hu) h

/-- A condition along a run, from its first step. -/
theorem along_cons (h : step s a = some t) (ha : cond s a) (has : Along step cond t as) :
    Along step cond s (a :: as) := by
  refine ⟨ha, fun u hu => ?_⟩
  obtain rfl := Option.some.inj (h.symm.trans hu)
  exact has

/-- A condition that can be decided at every step can be decided along a
run. -/
def decidableAlong (step : σ → α → Option σ) (cond : σ → α → Prop)
    [∀ s a, Decidable (cond s a)] : ∀ s as, Decidable (Along step cond s as)
  | _, [] => isTrue trivial
  | s, a :: as =>
    match hs : step s a with
    | none => decidable_of_iff (cond s a)
        ⟨fun h => ⟨h, fun _ ht => nomatch hs.symm.trans ht⟩, And.left⟩
    | some t =>
      have := decidableAlong step cond t as
      decidable_of_iff (cond s a ∧ Along step cond t as)
        ⟨fun h => along_cons hs h.1 h.2, fun h => ⟨h.1, h.2 t hs⟩⟩

instance (step : σ → α → Option σ) (cond : σ → α → Prop) [∀ s a, Decidable (cond s a)] (s : σ)
    (as : List α) : Decidable (Along step cond s as) := decidableAlong step cond s as

/-- A condition on actions alone holds along every run of such actions. -/
theorem along_of_forall (h : ∀ a ∈ as, ∀ s, cond s a) (s : σ) : Along step cond s as := by
  induction as generalizing s with
  | nil => trivial
  | cons a as ih =>
    exact ⟨h a (by simp) s, fun t _ => ih (fun b hb => h b (by simp [hb])) t⟩

/-- A condition along a composed run holds along both parts. -/
theorem Along.append (hcond : Along step cond s (as ++ bs)) (h : run step s as = some t) :
    Along step cond s as ∧ Along step cond t bs := by
  induction as generalizing s with
  | nil =>
    cases h
    exact ⟨trivial, hcond⟩
  | cons a as ih =>
    obtain ⟨u, hu, h⟩ := run_cons_eq_some h
    refine ⟨⟨hcond.1, fun v hv => ?_⟩, (ih (hcond.2 u hu) h).2⟩
    obtain rfl := Option.some.inj (hu.symm.trans hv)
    exact (ih (hcond.2 u hu) h).1

end VideooServer.StepRuns
