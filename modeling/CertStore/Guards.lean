/-
CertStore/Guards.lean

Checks that are made in order, the first one that fails deciding the error.

A `Guard` is a condition together with the error of its failure.  A list of
guards is passed exactly when all of them hold (`firstViolation_eq_ok_iff`),
and an error tells how far the checks went: the guards before the one that
raised it hold (`firstViolation_eq_error_iff`).  Lists of guards compose like
the computations they describe (`firstViolation_append`).
-/
import Mathlib.Data.List.Basic
import Mathlib.Tactic.Common

namespace Guards

variable {ε : Type*}

/-- A condition and the error of its failure. -/
structure Guard (ε : Type*) where
  holds : Bool
  error : ε

/-- The error of the first guard that does not hold. -/
def firstViolation : List (Guard ε) → Except ε Unit
  | [] => .ok ()
  | g :: gs => if g.holds then firstViolation gs else .error g.error

theorem firstViolation_cons_pos {g : Guard ε} (h : g.holds = true) (gs : List (Guard ε)) :
    firstViolation (g :: gs) = firstViolation gs := if_pos h

theorem firstViolation_cons_neg {g : Guard ε} (h : ¬g.holds = true) (gs : List (Guard ε)) :
    firstViolation (g :: gs) = .error g.error := if_neg h

/-- Guards after guards: an error of the first ones is final. -/
theorem firstViolation_append (gs hs : List (Guard ε)) :
    firstViolation (gs ++ hs) = (firstViolation gs).bind fun _ => firstViolation hs := by
  induction gs with
  | nil => rfl
  | cons g gs ih =>
    rw [List.cons_append]
    by_cases h : g.holds = true
    · rw [firstViolation_cons_pos h, firstViolation_cons_pos h, ih]
    · rw [firstViolation_cons_neg h, firstViolation_cons_neg h]
      rfl

/-- **Passing.**  Nothing is violated exactly when every guard holds. -/
theorem firstViolation_eq_ok_iff {gs : List (Guard ε)} :
    firstViolation gs = .ok () ↔ ∀ g ∈ gs, g.holds = true := by
  induction gs with
  | nil => simp [firstViolation]
  | cons g gs ih =>
    rw [List.forall_mem_cons]
    by_cases h : g.holds = true
    · rw [firstViolation_cons_pos h, ih]
      exact (and_iff_right h).symm
    · rw [firstViolation_cons_neg h]
      refine ⟨?_, ?_⟩
      · intro hok
        cases hok
      · intro hall
        exact absurd hall.1 h

/-- **Failing.**  An error comes from a guard that does not hold, behind guards
that all hold. -/
theorem firstViolation_eq_error_iff {gs : List (Guard ε)} {e : ε} :
    firstViolation gs = .error e ↔
      ∃ xs g ys, gs = xs ++ g :: ys ∧ (∀ x ∈ xs, x.holds = true) ∧ ¬g.holds = true ∧
        g.error = e := by
  refine ⟨?_, ?_⟩
  · intro h
    induction gs with
    | nil => cases h
    | cons g gs ih =>
      by_cases hg : g.holds = true
      · rw [firstViolation_cons_pos hg] at h
        obtain ⟨xs, g', ys, rfl, hxs, hg', he⟩ := ih h
        exact ⟨g :: xs, g', ys, rfl, List.forall_mem_cons.mpr ⟨hg, hxs⟩, hg', he⟩
      · rw [firstViolation_cons_neg hg] at h
        exact ⟨[], g, gs, rfl, by simp, hg, Except.error.inj h⟩
  · rintro ⟨xs, g, ys, rfl, hxs, hg, rfl⟩
    rw [firstViolation_append, firstViolation_eq_ok_iff.mpr hxs]
    exact firstViolation_cons_neg hg ys

/-- An error that is raised is the error of some guard. -/
theorem error_mem {gs : List (Guard ε)} {e : ε} (h : firstViolation gs = .error e) :
    e ∈ gs.map Guard.error := by
  obtain ⟨xs, g, ys, rfl, -, -, rfl⟩ := firstViolation_eq_error_iff.mp h
  exact List.mem_map_of_mem (by simp)

end Guards
