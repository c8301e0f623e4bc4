import Mathlib.Tactic
import Libuv.Core.Loop

/-!
# Counted loops

`for (i = 0; i < n; i++)` with an index of `w` bits, over a body that changes a state and can fail.

* `ends_iff`: with a bound the index can hold, what the loop ends with is the fold of the body over the indices.
* `not_ends`: with a larger one it only ends in a body that fails.
-/
namespace Libuv.Count

open Loop

variable {σ : Type*} (w n : ℕ) (body : ℕ → σ → Option σ)

def round (s : ℕ × σ) : (ℕ × σ) × Option (Option σ) :=
  if s.1 < n then
    match body s.1 s.2 with
    | some t => (((s.1 + 1) % 2 ^ w, t), none)
    | none => (s, some none)
  else (s, some (some s.2))

/-- The state behind the loop, if it has ended within `fuel` rounds. -/
def loop (fuel : ℕ) (s : σ) : Option σ := ((run (round w n body) fuel (0, s)).2).join

variable {w n body} {i k : ℕ} {s t : σ}

theorem round_some (hi : i < n) (h : body i s = some t) : round w n body (i, s) = (((i + 1) % 2 ^ w, t), none) := by
  simp [round, hi, h]

theorem round_none (hi : i < n) (h : body i s = none) : round w n body (i, s) = ((i, s), some none) := by
  simp [round, hi, h]

theorem round_end (hi : n ≤ i) : round w n body (i, s) = ((i, s), some (some s)) := if_neg (not_lt.2 hi)

theorem loop_mono {fuel fuel' : ℕ} (h : loop w n body fuel s = some t) (hle : fuel ≤ fuel') :
    loop w n body fuel' s = some t := by
  obtain ⟨r, hr, hrt⟩ := Option.bind_eq_some_iff.1 h
  have hrun := run_mono (Prod.ext rfl hr : run (round w n body) fuel (0, s) = (_, some r)) hle
  rw [loop, hrun]
  exact hrt

theorem run_eq (body : ℕ → σ → Option σ) (hn : n < 2 ^ w) (hi : i + k = n) (s : σ) :
    (run (round w n body) (k + 1) (i, s)).2 = some ((List.range' i k).foldlM (fun s j => body j s) s) := by
  induction k generalizing i s with
  | zero =>
    rw [run_of_done (round_end (by omega))]
    rfl
  | succ k ih =>
    rw [List.range'_succ, List.foldlM_cons]
    cases hb : body i s with
    | none =>
      rw [run_of_done (round_none (by omega) hb)]
      rfl
    | some t =>
      rw [run_of_step (round_some (by omega) hb), Nat.mod_eq_of_lt (by omega), ih (by omega) t]
      rfl

/-- **The loop is the fold**, if the index can hold the bound. -/
theorem ends_iff (body : ℕ → σ → Option σ) (s : σ) (hn : n < 2 ^ w) : (∃ fuel, loop w n body fuel s = some t) ↔
    (List.range n).foldlM (fun s j => body j s) s = some t := by
  have hrun := run_eq body hn (Nat.zero_add n) s
  rw [← List.range_eq_range'] at hrun
  constructor
  · rintro ⟨fuel, h⟩
    have h' := loop_mono h (le_max_left fuel (n + 1))
    obtain ⟨r, hr, rfl⟩ := Option.bind_eq_some_iff.1 h'
    rw [run_mono (Prod.ext rfl hrun : run (round w n body) (n + 1) (0, s) = (_, some _)) (le_max_right fuel (n + 1))] at hr
    exact Option.some.inj hr
  · intro h
    refine ⟨n + 1, ?_⟩
    rw [loop, hrun, h]
    rfl

theorem not_ends (hn : 2 ^ w ≤ n) (fuel : ℕ) : loop w n body fuel s = none := by
  have h : ∀ fuel (p : ℕ × σ), p.1 < 2 ^ w → ∀ r, (run (round w n body) fuel p).2 = some r → r = none := by
    intro fuel
    induction fuel with
    | zero => exact fun p _ r h => absurd h (by simp [run])
    | succ fuel ih =>
      intro p hp r h
      cases hb : body p.1 p.2 with
      | none =>
        rw [run_of_done (round_none (i := p.1) (by omega) hb)] at h
        exact (Option.some.inj h).symm
      | some t =>
        rw [run_of_step (round_some (i := p.1) (by omega) hb)] at h
        exact ih _ (Nat.mod_lt _ (Nat.two_pow_pos w)) r h
  unfold loop
  cases hr : (run (round w n body) fuel (0, s)).2 with
  | none => rfl
  | some r =>
    rw [h fuel (0, s) (Nat.two_pow_pos w) r hr]
    rfl

end Libuv.Count
