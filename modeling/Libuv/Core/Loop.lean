import Mathlib.Tactic.Common

/-!
# Loops with a bound on their rounds

`run step n s` makes up to `n` rounds of a loop from the state `s`. A round changes the state, and ends the loop where it
gives a result.

* `run_mono`, `run_unique`: what a loop ends with does not depend on the bound.
* `run_add`: the rounds of an unfinished run can be left out.
* `run_partial`: the rule for what a loop ends with, a relation between the state it is in, the last state and the result,
  that holds of a round that ends it and carries back over one that does not.
* `run_total`: with a measure that each round lowers, the loop ends too.
-/
namespace Libuv.Loop

variable {σ ρ : Type*}

def run (step : σ → σ × Option ρ) : ℕ → σ → σ × Option ρ
  | 0, s => (s, none)
  | n + 1, s =>
    match (step s).2 with
    | some r => ((step s).1, some r)
    | none => run step n (step s).1

/-- A round from `s` ends the loop as `Q` says, or leads to a state of `I` from which what `Q` says carries back. -/
def Round (step : σ → σ × Option ρ) (I : σ → Prop) (Q : σ → σ → ρ → Prop) (s : σ) : Prop :=
  (∃ s' r, step s = (s', some r) ∧ Q s s' r) ∨ ∃ s₁, step s = (s₁, none) ∧ I s₁ ∧ ∀ s' r, Q s₁ s' r → Q s s' r

variable {step : σ → σ × Option ρ}

variable {s s' : σ} {r : ρ} {n : ℕ}

theorem run_of_done (h : step s = (s', some r)) (n : ℕ) : run step (n + 1) s = (s', some r) := by
  unfold run
  rw [h]

theorem run_of_step (h : step s = (s', none)) (n : ℕ) : run step (n + 1) s = run step n s' := by
  conv_lhs => unfold run
  rw [h]

theorem run_mono {m : ℕ} (h : run step n s = (s', some r)) (hle : n ≤ m) :
    run step m s = (s', some r) := by
  induction n generalizing s m with
  | zero => cases h
  | succ n ih =>
    obtain ⟨m, rfl⟩ : ∃ k, m = k + 1 := ⟨m - 1, by omega⟩
    unfold run at h ⊢
    split at h
    · exact h
    · exact ih h (by omega)

theorem run_unique {m : ℕ} {s₁ s₂ : σ} {r₁ r₂ : ρ} (h₁ : run step n s = (s₁, some r₁))
    (h₂ : run step m s = (s₂, some r₂)) : s₁ = s₂ ∧ r₁ = r₂ := by
  have h := (run_mono h₁ (Nat.le_max_left n m)).symm.trans (run_mono h₂ (Nat.le_max_right n m))
  cases h
  exact ⟨rfl, rfl⟩

theorem run_add (h : run step n s = (s', none)) (m : ℕ) : run step (n + m) s = run step m s' := by
  induction n generalizing s with
  | zero =>
    cases h
    rw [Nat.zero_add]
  | succ n ih =>
    rw [Nat.succ_add]
    obtain ⟨s₁, r, hstep⟩ : ∃ s₁ r, step s = (s₁, r) := ⟨_, _, rfl⟩
    cases r with
    | some r =>
      rw [run_of_done hstep] at h
      cases h
    | none =>
      rw [run_of_step hstep] at h ⊢
      exact ih h

theorem run_partial {I : σ → Prop} {Q : σ → σ → ρ → Prop} (hround : ∀ s, I s → Round step I Q s)
    (hs : I s) (h : run step n s = (s', some r)) : Q s s' r := by
  induction n generalizing s with
  | zero => cases h
  | succ n ih =>
    obtain ⟨s₁, r₁, hstep, hq⟩ | ⟨s₁, hstep, hs₁, hback⟩ := hround s hs
    · rw [run_of_done hstep] at h
      cases h
      exact hq
    · rw [run_of_step hstep] at h
      exact hback s' r (ih hs₁ h)

theorem run_total {I : σ → Prop} {Q : σ → σ → ρ → Prop} (μ : σ → ℕ)
    (hround : ∀ s, I s → Round step (fun s₁ => I s₁ ∧ μ s₁ < μ s) Q s) (hs : I s) :
    ∃ n s' r, run step n s = (s', some r) ∧ Q s s' r := by
  induction hm : μ s using Nat.strongRecOn generalizing s with
  | _ m ih =>
    obtain ⟨s₁, r₁, hstep, hq⟩ | ⟨s₁, hstep, hlt, hback⟩ := hround s hs
    · exact ⟨1, s₁, r₁, run_of_done hstep 0, hq⟩
    · obtain ⟨n, s', r, hrun, hq⟩ := ih (μ s₁) (hm ▸ hlt.2) hlt.1 rfl
      exact ⟨n + 1, s', r, (run_of_step hstep n).trans hrun, hback s' r hq⟩

end Libuv.Loop
