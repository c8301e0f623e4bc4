import Mathlib.Data.List.Nodup
import Mathlib.Logic.Function.Basic
import Mathlib.Tactic.TypeStar
import Mathlib.Tactic.Common

/-!
# Singly linked lists

A memory of nodes with one pointer each, `next`, which may be null. `Chain next p l` says that
from the pointer `p` one meets the nodes of `l` and then null.

* `Chain.unlink`: a node behind another is taken out by one store.
* `Chain.predecessor`: the walk that looks for the node before a given one finds it.
-/
namespace Libuv

variable {α : Type*} {next next' : α → Option α} {p : Option α} {a c : α} {l : List α}

def Chain (next : α → Option α) : Option α → List α → Prop
  | p, [] => p = none
  | p, a :: l => p = some a ∧ Chain next (next a) l

/-- From `last`, the node whose pointer is `c`; null is an error, and so are more than `n` steps. -/
def predecessor [DecidableEq α] (next : α → Option α) (c : α) : ℕ → α → Option α
  | 0, _ => none
  | n + 1, last =>
    match next last with
    | none => none
    | some it => if it = c then some last else predecessor next c n it

namespace Chain

theorem head (h : Chain next p l) : p = l.head? := by
  cases l with
  | nil => exact h
  | cons a l => exact h.1

theorem congr (h : Chain next p l) (hn : ∀ a ∈ l, next' a = next a) : Chain next' p l := by
  induction l generalizing p with
  | nil => exact h
  | cons a l ih =>
    refine ⟨h.1, ?_⟩
    rw [hn a List.mem_cons_self]
    exact ih h.2 fun b hb => hn b (List.mem_cons_of_mem _ hb)

theorem store [DecidableEq α] (h : Chain next p l) (ha : a ∉ l) (v : Option α) : Chain (Function.update next a v) p l := by
  refine h.congr fun b hb => ?_
  have hne : b ≠ a := fun e => ha (e ▸ hb)
  exact Function.update_of_ne hne v next

/-- The node `c` behind `a` is taken out. -/
theorem unlink [DecidableEq α] {k : List α} (h : Chain next p (l ++ a :: c :: k)) (hd : (l ++ a :: c :: k).Nodup) :
    Chain (Function.update next a (next c)) p (l ++ a :: k) := by
  induction l generalizing p with
  | nil =>
    obtain ⟨h1, -, h3⟩ := h
    have ha : a ∉ k := by
      have := (List.nodup_cons.1 hd).1
      exact fun hk => this (List.mem_cons_of_mem _ hk)
    refine ⟨h1, ?_⟩
    rw [Function.update_self]
    exact store h3 ha _
  | cons b l ih =>
    obtain ⟨hb, hd⟩ := List.nodup_cons.1 hd
    have hne : b ≠ a := fun e => hb (by simp [e])
    refine ⟨h.1, ?_⟩
    rw [Function.update_of_ne hne]
    exact ih h.2 hd

/-- **The walk** from a node of a list finds the node before `c`. -/
theorem predecessor [DecidableEq α] (h : Chain next (next a) l) (hc : c ∈ l) {n : ℕ} (hn : l.length ≤ n) :
    ∃ l₁ b l₂, a :: l = l₁ ++ b :: c :: l₂ ∧ Libuv.predecessor next c n a = some b := by
  induction l generalizing a n with
  | nil => cases hc
  | cons d l ih =>
    obtain ⟨n, rfl⟩ : ∃ m, n = m + 1 := Nat.exists_eq_add_one_of_ne_zero (by simp at hn; omega)
    obtain ⟨h1, h2⟩ := h
    rw [Libuv.predecessor, h1]
    by_cases hdc : d = c
    · subst hdc
      exact ⟨[], a, l, rfl, if_pos rfl⟩
    · obtain ⟨l₁, b, l₂, hl, hb⟩ := ih h2 (List.mem_of_ne_of_mem (Ne.symm hdc) hc) (Nat.le_of_succ_le_succ hn)
      exact ⟨a :: l₁, b, l₂, by rw [hl]; rfl, by rw [← hb]; exact if_neg hdc⟩

end Chain

end Libuv
