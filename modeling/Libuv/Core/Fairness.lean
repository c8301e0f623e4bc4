import Mathlib.Order.WellFounded
import Libuv.Core.LTS

/-!
# Infinite runs and fairness

`InfRun T` is an infinite run of a labelled transition system whose labels belong to
threads. It is fair when a thread that is active is scheduled again and again; what
"active" means is a parameter.

* `InfRun.leads_to`: the helpful-thread rule. While a state predicate lasts, some active
  thread is such that each of its steps lowers a well-founded rank, and steps of the
  others keep it; then the run gets to the event it is heading for. `leads_to_by`: with one thread.
* `History.forever`: a history that ends in a state with a step to itself is the
  beginning of an infinite run.
-/
namespace Libuv.LTS

variable {S L : Type*} {T : LTS S L}

structure InfRun (T : LTS S L) where
  state : ℕ → S
  label : ℕ → L
  init : T.init (state 0)
  step : ∀ n, T.step (state n) (label n) (state (n + 1))

namespace InfRun

theorem history (ρ : T.InfRun) (n : ℕ) : T.History ((List.range n).map ρ.label) (ρ.state n) := by
  induction n with
  | zero => exact .nil ρ.init
  | succ n ih =>
    rw [List.range_succ, List.map_append]
    exact ih.snoc (ρ.step n)

theorem reachable (ρ : T.InfRun) (n : ℕ) : T.Reachable (ρ.state n) := ⟨_, ρ.history n⟩

section Progress
variable {Θ : Type*} (thread : L → Θ) (active : Θ → S → Prop)

def Fair (ρ : T.InfRun) : Prop :=
  ∀ p n, active p (ρ.state n) → ∃ m, n ≤ m ∧ thread (ρ.label m) = p

variable {α : Type*} [Preorder α] [WellFoundedLT α]
variable {thread active} (P : S → Prop) (helps : Θ → S → Prop) (rank : S → α) (Q : S → L → S → Prop)

/-- **The helpful-thread rule.** -/
theorem leads_to (ρ : T.InfRun) (hfair : ρ.Fair thread active)
    (hactive : ∀ p s, T.Reachable s → P s → helps p s → active p s)
    (hhelp : ∀ s, T.Reachable s → P s → ∃ p, helps p s)
    (hstep : ∀ s l s', T.Reachable s → P s → T.step s l s' → Q s l s' ∨ P s' ∧ (rank s' < rank s ∨
        rank s' = rank s ∧ ∀ p, helps p s → thread l ≠ p ∧ helps p s'))
    (n : ℕ) (hP : P (ρ.state n)) : ∃ m, n ≤ m ∧ Q (ρ.state m) (ρ.label m) (ρ.state (m + 1)) := by
  generalize hr : rank (ρ.state n) = r
  induction r using WellFoundedLT.induction generalizing n with
  | ind r ih =>
    obtain ⟨p, hp⟩ := hhelp _ (ρ.reachable n) hP
    obtain ⟨m, hnm, hm⟩ := hfair p n (hactive p _ (ρ.reachable n) hP hp)
    -- until the helpful thread runs, at the latest at `m`
    obtain ⟨d, rfl⟩ := Nat.exists_eq_add_of_le hnm
    clear hnm
    induction d generalizing n with
    | zero =>
      rcases hstep _ _ _ (ρ.reachable n) hP (ρ.step n) with hq | ⟨hP', hlt | ⟨-, hother⟩⟩
      · exact ⟨n, Nat.le_refl n, hq⟩
      · obtain ⟨m, h1, h2⟩ := ih _ (hr ▸ hlt) (n + 1) hP' rfl
        exact ⟨m, by omega, h2⟩
      · exact absurd hm (hother p hp).1
    | succ d ihd =>
      rcases hstep _ _ _ (ρ.reachable n) hP (ρ.step n) with hq | ⟨hP', hlt | ⟨heq, hother⟩⟩
      · exact ⟨n, Nat.le_refl n, hq⟩
      · obtain ⟨m, h1, h2⟩ := ih _ (hr ▸ hlt) (n + 1) hP' rfl
        exact ⟨m, by omega, h2⟩
      · have e : n + 1 + d = n + (d + 1) := by omega
        obtain ⟨m, h1, h2⟩ := ihd (n + 1) hP' (heq.trans hr) (hother p hp).2 (e ▸ hm)
        exact ⟨m, by omega, h2⟩

/-- The rule for one thread that helps as long as `P` lasts. -/
theorem leads_to_by (p : Θ) (ρ : T.InfRun) (hfair : ρ.Fair thread active) (hactive : ∀ s, T.Reachable s → P s → active p s)
    (hstep : ∀ s l s', T.Reachable s → P s → T.step s l s' →
      Q s l s' ∨ P s' ∧ (rank s' < rank s ∨ rank s' = rank s ∧ thread l ≠ p))
    (n : ℕ) (hP : P (ρ.state n)) : ∃ m, n ≤ m ∧ Q (ρ.state m) (ρ.label m) (ρ.state (m + 1)) := by
  refine ρ.leads_to P (fun q _ => q = p) rank Q hfair (fun q s hr hs hq => hq ▸ hactive s hr hs) (fun _ _ _ => ⟨p, rfl⟩)
    (fun s l s' hr hs hst => ?_) n hP
  refine (hstep s l s' hr hs hst).imp_right (And.imp_right (Or.imp_right (And.imp_right fun hl q hq => ?_)))
  rw [hq]
  exact ⟨hl, rfl⟩

end Progress

end InfRun

/-- The states that steps which are computed lead through; a step that fails is left out. -/
def follow (f : S → L → Option S) (s : S) (label : ℕ → L) : ℕ → S
  | 0 => s
  | n + 1 => (f (follow f s label n) (label n)).getD (follow f s label n)

theorem Run.states {s s' : S} {ls : List L} (h : T.Run s ls s') : ∃ f : ℕ → S, f 0 = s ∧
    (∀ n (hn : n < ls.length), T.step (f n) ls[n] (f (n + 1))) ∧ ∀ n, ls.length ≤ n → f n = s' := by
  induction h with
  | nil => exact ⟨fun _ => s, rfl, fun _ hn => absurd hn (Nat.not_lt_zero _), fun _ _ => rfl⟩
  | @snoc t u ls l _ hs ih =>
    obtain ⟨f, h0, h1, h2⟩ := ih
    refine ⟨fun n => if n ≤ ls.length then f n else u, by simp [h0], fun n hn => ?_, fun n hn => ?_⟩
    · rw [List.length_append, List.length_singleton] at hn
      rcases Nat.lt_or_ge n ls.length with hlt | hge
      · simp only [if_pos (Nat.le_of_lt hlt), if_pos (Nat.succ_le_of_lt hlt), List.getElem_append_left hlt]
        exact h1 n hlt
      · obtain rfl : n = ls.length := by omega
        have e : ¬ ls.length + 1 ≤ ls.length := by omega
        simp only [if_pos (Nat.le_refl _), if_neg e, h2 _ (Nat.le_refl _), List.getElem_concat_length]
        exact hs
    · rw [List.length_append, List.length_singleton] at hn
      simp [if_neg (show ¬ n ≤ ls.length by omega)]

theorem History.forever {s : S} {ls : List L} {l : L} (h : T.History ls s) (hs : T.step s l s) :
    ∃ ρ : T.InfRun, (∀ n, ρ.label n = ls[n]?.getD l) ∧ ∀ n, ls.length ≤ n → ρ.state n = s := by
  obtain ⟨s₀, h0, hr⟩ := h
  obtain ⟨f, f0, f1, f2⟩ := hr.states
  refine ⟨⟨f, fun n => ls[n]?.getD l, f0 ▸ h0, fun n => ?_⟩, fun _ => rfl, f2⟩
  rcases Nat.lt_or_ge n ls.length with hlt | hge
  · simpa [List.getElem?_eq_getElem hlt] using f1 n hlt
  · rw [f2 n hge, f2 (n + 1) (by omega), List.getElem?_eq_none hge]
    exact hs

end Libuv.LTS
