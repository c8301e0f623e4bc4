import Mathlib.Data.List.Nodup
import Mathlib.Logic.Function.Basic
import Mathlib.Tactic.TypeStar
import Mathlib.Tactic.Common

/-!
# Circular singly linked lists

A memory of nodes with one pointer each. `Path next l z` says that the nodes of `l` point at each
other in order and the last one at `z`; a list with `Path next l` of its own first node is a
circle, and is held by a pointer to its last node.

* `Path.concat`: two stores put a node behind the last one.
* `Path.redirect`: one store makes the last one point elsewhere.
* `Circle.insert`, `Circle.remove`: a circle that is held by its last node takes a node behind that one, and gives away the
  first one.
-/
namespace Libuv

open List Function

variable {α : Type*} {next next' : α → Option α} {a r t z : α} {l k : List α}

def Path (next : α → Option α) : List α → α → Prop
  | [], _ => True
  | a :: l, z => next a = some (l.headD z) ∧ Path next l z

namespace Path

theorem congr (h : Path next l z) (hn : ∀ a ∈ l, next' a = next a) : Path next' l z := by
  induction l with
  | nil => trivial
  | cons a l ih =>
    refine ⟨?_, ih h.2 fun b hb => hn b (mem_cons_of_mem _ hb)⟩
    rw [hn a mem_cons_self]
    exact h.1

theorem append : Path next (l ++ k) z ↔ Path next l (k.headD z) ∧ Path next k z := by
  induction l with
  | nil => simp [Path]
  | cons a l ih =>
    have hd : (l ++ k).headD z = l.headD (k.headD z) := by cases l <;> rfl
    rw [cons_append, Path, Path, ih, hd, and_assoc]

theorem last (h : Path next (l ++ [t]) z) : next t = some z := (append.1 h).2.1

/-- A node `r` is put behind the last one: it takes over the pointer of that node, which points at `r`. -/
theorem concat [DecidableEq α] (h : Path next (l ++ [t]) z) (hd : (l ++ [t]).Nodup) (hr : r ∉ l ++ [t]) :
    Path (update (update next r (some z)) t (some r)) (l ++ [t] ++ [r]) z := by
  have htr : t ≠ r := fun e => hr (by simp [e])
  have hoff : ∀ a ∈ l, update (update next r (some z)) t (some r) a = next a := by
    intro a ha
    have hat : a ≠ t := fun e => (nodup_append.1 hd).2.2 a ha t (mem_singleton_self t) e
    have har : a ≠ r := fun e => hr (e ▸ mem_append_left _ ha)
    rw [update_of_ne hat, update_of_ne har]
  rw [append_assoc, append]
  refine ⟨(append.1 h).1.congr hoff, ?_, ?_, trivial⟩
  · exact update_self ..
  · rw [update_of_ne htr.symm, update_self]
    rfl

theorem redirect [DecidableEq α] {y : α} (h : Path next (l ++ [t]) z) (ht : t ∉ l) :
    Path (update next t (some y)) (l ++ [t]) y := by
  rw [append] at h ⊢
  refine ⟨h.1.congr fun a ha => update_of_ne (ne_of_mem_of_not_mem ha ht) .., ?_, trivial⟩
  exact update_self ..

end Path

/-- The nodes of a circle from the first to the last one, which `tail` points to. -/
def Circle (next : α → Option α) (tail : Option α) (l : List α) : Prop := tail = l.getLast? ∧ ∀ a ∈ l.head?, Path next l a

namespace Circle

theorem nil : Circle next none [] := ⟨rfl, fun _ h => (Option.not_mem_none _ h).elim⟩

variable [DecidableEq α]

theorem insert_nil (next : α → Option α) (r : α) : Circle (update next r (some r)) (some r) [r] := by
  refine ⟨rfl, fun a ha => ?_⟩
  obtain rfl : r = a := Option.some.inj ha
  exact ⟨update_self .., trivial⟩

theorem insert (h : Circle next (some t) l) (hd : l.Nodup) (hr : r ∉ l) :
    Circle (update (update next r (next t)) t (some r)) (some r) (l ++ [r]) := by
  obtain ⟨k, rfl⟩ := getLast?_eq_some_iff.1 h.1.symm
  refine ⟨by simp, fun a ha => ?_⟩
  have hp := h.2 a (by cases k <;> simpa using ha)
  rw [hp.last]
  exact hp.concat hd hr

/-- The last node points at the first one, and if they are not the same, it is made to point at the second. -/
theorem remove (h : Circle next (some t) l) (hd : l.Nodup) : ∃ a k, l = a :: k ∧ next t = some a ∧ (a = t → k = []) ∧
    (a ≠ t → Circle (update next t (next a)) (some t) k) := by
  obtain ⟨k, rfl⟩ := getLast?_eq_some_iff.1 h.1.symm
  cases k with
  | nil => exact ⟨t, [], rfl, (h.2 t rfl).1, fun _ => rfl, fun h => absurd rfl h⟩
  | cons a k =>
    have hp := h.2 a rfl
    have ht : t ∉ k := fun hm => (nodup_append.1 hd).2.2 t (mem_cons_of_mem _ hm) t (mem_singleton_self t) rfl
    refine ⟨a, k ++ [t], rfl, hp.last, fun e => ?_, fun _ => ⟨by simp, fun b hb => ?_⟩⟩
    · subst e
      simp at hd
    · have hhead : (k ++ [t]).headD a = b := by cases k <;> simpa using hb
      rw [hp.1, append_eq, hhead]
      exact hp.2.redirect ht

end Circle

end Libuv
