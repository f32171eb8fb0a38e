import Mathlib.Data.List.Range
import Mathlib.Tactic.Common

/-!
# Attempts

A stream of attempts that succeed with a value or fail, by their number.  `draw` makes a
limited number of attempts for one value, and `drawMany` draws one value after the other
until one of them cannot be drawn.  All that succeeded is drawn, in order
(`drawMany_cases`).
-/

namespace Attempts

variable {α : Type} (step : Nat → Option α)

/-- What the attempts from `a` on, up to `b`, succeed with. -/
def successes (a b : Nat) : List α := (List.range' a (b - a)).filterMap step

/-- The first success of a number of attempts, and the number of the next attempt. -/
def draw : Nat → Nat → Option α × Nat
  | 0, a => (none, a)
  | limit + 1, a =>
    match step a with
    | some v => (some v, a + 1)
    | none => draw limit (a + 1)

/-- Values drawn in turn, whether all of them could be drawn, and the next attempt. -/
def drawMany (limit : Nat) : Nat → Nat → List α × Bool × Nat
  | 0, a => ([], true, a)
  | count + 1, a =>
    match draw step limit a with
    | (none, a) => ([], false, a)
    | (some v, a) => (v :: (drawMany limit count a).1, (drawMany limit count a).2)

theorem successes_self (a : Nat) : successes step a a = [] := by
  simp [successes]

theorem successes_append {a b c : Nat} (hab : a ≤ b) (hbc : b ≤ c) :
    successes step a c = successes step a b ++ successes step b c := by
  have hsplit : c - a = (b - a) + (c - b) := by omega
  have hstart : a + 1 * (b - a) = b := by omega
  rw [successes, successes, successes, ← List.filterMap_append, hsplit, ← List.range'_append, hstart]

theorem successes_succ (a : Nat) : successes step a (a + 1) = (step a).toList := by
  have hone : a + 1 - a = 1 := by omega
  rw [successes, hone, List.range'_one]
  cases h : step a with
  | none => simp [h]
  | some v => simp [h]

theorem draw_cases (limit a : Nat) :
    (∃ v b, draw step limit a = (some v, b) ∧ a ≤ b ∧ b ≤ a + limit ∧ successes step a b = [v]) ∨
      (draw step limit a = (none, a + limit) ∧ successes step a (a + limit) = [] ∧
        ∀ j < limit, step (a + j) = none) := by
  induction limit generalizing a with
  | zero => exact Or.inr ⟨rfl, successes_self step a, fun j hj => absurd hj (Nat.not_lt_zero j)⟩
  | succ limit ih =>
    cases hstep : step a with
    | some v =>
      refine Or.inl ⟨v, a + 1, ?_, Nat.le_succ a, by omega, ?_⟩
      · simp only [draw, hstep]
      · rw [successes_succ, hstep]
        rfl
    | none =>
      have hdraw : draw step (limit + 1) a = draw step limit (a + 1) := by
        simp only [draw, hstep]
      have hnone : successes step a (a + 1) = [] := by
        rw [successes_succ, hstep]
        rfl
      rw [hdraw]
      rcases ih (a + 1) with ⟨v, b, heq, hlow, hhigh, hsuccess⟩ | ⟨heq, hempty, hfail⟩
      · refine Or.inl ⟨v, b, heq, by omega, by omega, ?_⟩
        rw [successes_append step (Nat.le_succ a) hlow, hnone, hsuccess]
        rfl
      · have hend : a + (limit + 1) = a + 1 + limit := by omega
        refine Or.inr ⟨?_, ?_, ?_⟩
        · rw [heq, hend]
        · rw [hend, successes_append step (Nat.le_succ a) (Nat.le_add_right _ _), hnone, hempty]
          rfl
        · intro j hj
          cases j with
          | zero => exact hstep
          | succ j =>
            rw [← Nat.add_assoc, Nat.add_right_comm]
            exact hfail j (by omega)

/-- **All that succeeded is drawn.**  Either every value could be drawn; or the last attempts
    all failed, as many as there may be. -/
theorem drawMany_cases (limit count a : Nat) :
    (drawMany step limit count a).1 = successes step a (drawMany step limit count a).2.2 ∧
    a ≤ (drawMany step limit count a).2.2 ∧
    (((drawMany step limit count a).2.1 = true ∧ (drawMany step limit count a).1.length = count ∧
        (drawMany step limit count a).2.2 ≤ a + limit * count) ∨
      ((drawMany step limit count a).2.1 = false ∧
        (drawMany step limit count a).1.length < count ∧
        ∃ b, a ≤ b ∧ (drawMany step limit count a).2.2 = b + limit ∧
          ∀ j < limit, step (b + j) = none)) := by
  induction count generalizing a with
  | zero => exact ⟨(successes_self step a).symm, Nat.le_refl a, Or.inl ⟨rfl, rfl, by simp [drawMany]⟩⟩
  | succ count ih =>
    rcases draw_cases step limit a with ⟨v, b, heq, hlow, hhigh, hsuccess⟩ | ⟨heq, hempty, hfail⟩
    · obtain ⟨hvalues, hle, hcases⟩ := ih b
      simp only [drawMany, heq, List.length_cons]
      refine ⟨?_, hlow.trans hle, ?_⟩
      · rw [successes_append step hlow hle, hsuccess, ← hvalues]
        rfl
      · rcases hcases with ⟨hall, hlength, hend⟩ | ⟨hnot, hlength, c, hc, hend, hfail⟩
        · refine Or.inl ⟨hall, by rw [hlength], ?_⟩
          rw [Nat.mul_succ]
          omega
        · exact Or.inr ⟨hnot, Nat.succ_lt_succ hlength, c, hlow.trans hc, hend, hfail⟩
    · have hdraw : drawMany step limit (count + 1) a = ([], false, a + limit) := by
        simp only [drawMany, heq]
      rw [hdraw]
      exact ⟨hempty.symm, Nat.le_add_right a limit,
        Or.inr ⟨rfl, Nat.succ_pos count, a, Nat.le_refl a, rfl, hfail⟩⟩

end Attempts
