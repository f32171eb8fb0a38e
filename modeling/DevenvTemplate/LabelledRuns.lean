import Mathlib.Data.List.Count
import Mathlib.Data.List.Induction
import Mathlib.Tactic.Common

/-!
# Runs of a labelled step relation

What each step keeps, every run keeps (`Run.invariant`), and a run of a whole is a run of
each component (`Run.project`).  Steps that use up a potential can only be as many as there
is potential, if the other steps, the retries, give back a bounded part of it
(`Run.length_le`).  A kind of step that excludes itself afterwards happens at most once
(`Run.countP_le_one`).
-/

namespace LabelledRuns

variable {State Label : Type} {Step : State → Label → State → Prop}

/-- A run with its labels in order. -/
inductive Run (Step : State → Label → State → Prop) (s : State) : List Label → State → Prop
  | nil : Run Step s [] s
  | snoc {s' s'' : State} {labels : List Label} {label : Label}
      (run : Run Step s labels s') (step : Step s' label s'') : Run Step s (labels ++ [label]) s''

theorem Run.single {s s' : State} {label : Label} (h : Step s label s') :
    Run Step s [label] s' :=
  Run.snoc Run.nil h

theorem Run.of_snoc {s s'' : State} {labels : List Label} {label : Label}
    (h : Run Step s (labels ++ [label]) s'') : ∃ s', Run Step s labels s' ∧ Step s' label s'' := by
  generalize heq : labels ++ [label] = all at h
  cases h with
  | nil => simp at heq
  | snoc run step =>
    obtain ⟨rfl, hlabel⟩ := List.append_inj' heq rfl
    obtain rfl := List.singleton_inj.mp hlabel
    exact ⟨_, run, step⟩

theorem Run.of_append {s s'' : State} {labels labels' : List Label}
    (h : Run Step s (labels ++ labels') s'') :
    ∃ s', Run Step s labels s' ∧ Run Step s' labels' s'' := by
  induction labels' using List.reverseRecOn generalizing s'' with
  | nil =>
    rw [List.append_nil] at h
    exact ⟨s'', h, Run.nil⟩
  | append_singleton labels' label ih =>
    rw [← List.append_assoc] at h
    rcases h.of_snoc with ⟨s₁, hrun, hstep⟩
    rcases ih hrun with ⟨s', hfirst, hrest⟩
    exact ⟨s', hfirst, Run.snoc hrest hstep⟩

/-- A component whose labels are some of the labels of the whole takes a run of its own. -/
theorem Run.project {State' Label' : Type} {Step' : State' → Label' → State' → Prop}
    {f : State → State'} {g : Label → Option Label'}
    (hstep : ∀ s label s', Step s label s' →
      (g label = none ∧ f s' = f s) ∨ ∃ label', g label = some label' ∧ Step' (f s) label' (f s'))
    {s s' : State} {labels : List Label} (h : Run Step s labels s') :
    Run Step' (f s) (labels.filterMap g) (f s') := by
  induction h with
  | nil => exact Run.nil
  | snoc _ step ih =>
    rw [List.filterMap_append]
    rcases hstep _ _ _ step with ⟨hnone, hsame⟩ | ⟨label', hsome, hstep'⟩
    · rw [List.filterMap_cons_none hnone, List.filterMap_nil, List.append_nil, hsame]
      exact ih
    · rw [List.filterMap_cons_some hsome, List.filterMap_nil]
      exact Run.snoc ih hstep'

/-! ### Invariants -/

section Invariant

variable {I : State → Prop} (hstep : ∀ s label s', I s → Step s label s' → I s')

include hstep

theorem Run.invariant {s s' : State} {labels : List Label} (h : Run Step s labels s')
    (hs : I s) : I s' := by
  induction h with
  | nil => exact hs
  | snoc _ step ih => exact hstep _ _ _ ih step

/-- A kind of step that leads to states it is impossible in. -/
theorem Run.countP_le_one {p : Label → Bool} {After : State → Prop}
    (hafter : ∀ s label s', I s → Step s label s' → p label = true → After s')
    (hstable : ∀ s label s', I s → After s → Step s label s' → After s')
    (hno : ∀ s label s', I s → After s → Step s label s' → p label = false)
    {s s' : State} {labels : List Label} (h : Run Step s labels s') (hs : I s) :
    labels.countP p ≤ 1 ∧ (0 < labels.countP p → After s') := by
  induction h with
  | nil => simp
  | @snoc s' s'' labels label run step ih =>
    rcases ih with ⟨hle, hafter'⟩
    have hinv := run.invariant hstep hs
    rw [List.countP_append, List.countP_singleton]
    cases hp : p label with
    | true =>
      have hzero : labels.countP p = 0 := by
        by_contra hne
        have hnot := hno _ _ _ hinv (hafter' (Nat.pos_of_ne_zero hne)) step
        rw [hp] at hnot
        cases hnot
      rw [hzero]
      exact ⟨Nat.le_refl 1, fun _ => hafter _ _ _ hinv step hp⟩
    | false =>
      refine ⟨by simpa using hle, ?_⟩
      intro hpos
      exact hstable _ _ _ hinv (hafter' (by simpa using hpos)) step

/-! ### Potentials -/

/-- Each step that is no retry uses up potential, and a retry gives back at most `c`. -/
theorem Run.length_le {potential : State → Nat} {retry : Label → Bool} {c : Nat}
    (hprogress : ∀ s label s', I s → Step s label s' → retry label = false →
      potential s' < potential s)
    (hretry : ∀ s label s', I s → Step s label s' → retry label = true →
      potential s' ≤ potential s + c)
    {s s' : State} {labels : List Label} (h : Run Step s labels s') (hs : I s) :
    labels.length + potential s' ≤ potential s + (c + 1) * labels.countP retry := by
  induction h with
  | nil => simp
  | @snoc s' s'' labels label run step ih =>
    have hinv := run.invariant hstep hs
    rw [List.length_append, List.length_singleton, List.countP_append, List.countP_singleton,
      Nat.mul_add]
    cases hlabel : retry label with
    | true =>
      have hgain := hretry _ _ _ hinv step hlabel
      simp only [if_pos]
      omega
    | false =>
      have hloss := hprogress _ _ _ hinv step hlabel
      simp only [Bool.false_eq_true, if_false]
      omega

end Invariant

end LabelledRuns
