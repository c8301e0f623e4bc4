import Mathlib.Tactic

/-!
# Ordered lists

A search tree is represented by the list of its nodes in order. `insertAt` puts an element behind those that
are smaller; `range` is a search for the first node with a key followed by steps to the next node.

* `pairwise_insertAt`: the order is kept.
* `range_eq_filter`: the nodes that a search followed by steps visits are those with the key.
-/
namespace Libuv.Ordered

open List

variable {α : Type*}

/-- `a` behind the elements that satisfy `before`. -/
def insertAt (before : α → Bool) (a : α) (l : List α) : List α := l.takeWhile before ++ a :: l.dropWhile before

theorem mem_insertAt {before : α → Bool} {a x : α} {l : List α} : x ∈ insertAt before a l ↔ x = a ∨ x ∈ l := by
  have h : x ∈ l ↔ x ∈ l.takeWhile before ∨ x ∈ l.dropWhile before := by
    rw [← mem_append, takeWhile_append_dropWhile]
  rw [insertAt, mem_append, mem_cons]
  tauto

theorem pairwise_insertAt {lt : α → α → Prop} (trans : ∀ x y z, lt x y → lt y z → lt x z) {before : α → Bool} {a : α}
    {l : List α} (hl : l.Pairwise lt) (hb : ∀ x ∈ l, before x = true → lt x a) (ha : ∀ x ∈ l, before x = false → lt a x) :
    (insertAt before a l).Pairwise lt := by
  induction l with
  | nil => exact pairwise_singleton _ _
  | cons x l ih =>
    obtain ⟨hx, hl⟩ := pairwise_cons.1 hl
    cases hbx : before x with
    | true =>
      have hrec := ih hl (fun y hy => hb y (.tail _ hy)) (fun y hy => ha y (.tail _ hy))
      have e : insertAt before a (x :: l) = x :: insertAt before a l := by
        simp [insertAt, hbx]
      rw [e]
      apply pairwise_cons.2 ⟨_, hrec⟩
      intro y hy
      rcases mem_insertAt.1 hy with rfl | hy
      · exact hb x (.head _) hbx
      · exact hx y hy
    | false =>
      have hax := ha x (.head _) hbx
      have e : insertAt before a (x :: l) = a :: x :: l := by
        simp [insertAt, hbx]
      rw [e]
      apply pairwise_cons.2 ⟨_, pairwise_cons.2 ⟨hx, hl⟩⟩
      intro y hy
      rcases mem_cons.1 hy with rfl | hy
      · exact hax
      · exact trans a x y hax (hx y hy)

theorem takeWhile_eq_filter {f : α → ℤ} {n : ℤ} {l : List α} (hl : l.Pairwise fun x y => f x ≤ f y) (hn : ∀ x ∈ l, n ≤ f x) :
    l.takeWhile (fun x => f x = n) = l.filter (fun x => f x = n) := by
  induction l with
  | nil => rfl
  | cons x l ih =>
    obtain ⟨hx, hl⟩ := pairwise_cons.1 hl
    by_cases hxn : f x = n
    · rw [takeWhile_cons_of_pos (by simpa using hxn), filter_cons_of_pos (by simpa using hxn),
        ih hl (fun y hy => hn y (.tail _ hy))]
    · rw [takeWhile_cons_of_neg (by simpa using hxn), filter_cons_of_neg (by simpa using hxn)]
      symm
      apply filter_eq_nil_iff.2
      intro y hy
      have h1 := hn x (.head _)
      have h2 := hx y hy
      simp only [decide_eq_true_eq]
      omega

/-- What is visited from the first node whose key is not below `n` on, while the key is `n`. -/
theorem range_eq_filter {f : α → ℤ} {n : ℤ} {l : List α} (hl : l.Pairwise fun x y => f x ≤ f y) :
    (l.dropWhile fun x => f x < n).takeWhile (fun x => f x = n) = l.filter (fun x => f x = n) := by
  induction l with
  | nil => rfl
  | cons x l ih =>
    obtain ⟨hx, hl'⟩ := pairwise_cons.1 hl
    by_cases hxn : f x < n
    · have hne : ¬(f x = n) := by omega
      rw [dropWhile_cons_of_pos (by simpa using hxn), filter_cons_of_neg (by simpa using hne), ih hl']
    · rw [dropWhile_cons_of_neg (by simpa using hxn)]
      apply takeWhile_eq_filter hl
      intro y hy
      rcases mem_cons.1 hy with rfl | hy
      · omega
      · have := hx y hy
        omega

end Libuv.Ordered
