import Mathlib.Data.List.Nodup
import Mathlib.Tactic

/-!
# Circular doubly linked lists

`Links` is a memory of nodes with two pointers each. `Linked m l` says that the nodes of `l`
point at each other in order, and `Ring m h l` that `l` is what a list head `h` holds: going
forward from `h` one meets the nodes of `l` and is back at `h`, and going backward the same
nodes in reverse. Nodes occur once.

* `Linked.link`, `Linked.unlink`: what has to be stored to put a node between two neighbours,
  or to take it out.
* `Ring.congr`: a ring depends on the pointers of its own nodes only.
-/
namespace Libuv

open List

structure Links (α : Type*) where
  next : α → α
  prev : α → α

variable {α : Type*} {m m' : Links α}

/-- Each node points forward at the one behind it, which points back. -/
def Linked (m : Links α) : List α → Prop
  | a :: b :: l => m.next a = b ∧ m.prev b = a ∧ Linked m (b :: l)
  | _ => True

theorem linked_append : ∀ {l k : List α} {x : α}, Linked m (l ++ x :: k) ↔ Linked m (l ++ [x]) ∧ Linked m (x :: k)
  | [], _, _ => by simp [Linked]
  | [a], _, x => by simp [Linked, and_assoc]
  | a :: b :: l, k, x => by
    have ih := linked_append (l := b :: l) (k := k) (x := x)
    simp only [cons_append] at ih ⊢
    simp [Linked, ih, and_assoc]

theorem Linked.congr : ∀ {l : List α}, Linked m l → (∀ a ∈ l.dropLast, m'.next a = m.next a) →
    (∀ b ∈ l.tail, m'.prev b = m.prev b) → Linked m' l
  | [], _, _, _ => trivial
  | [_], _, _, _ => trivial
  | a :: b :: l, h, hn, hp => by
    obtain ⟨h1, h2, h3⟩ := h
    refine ⟨(hn a (by simp)).trans h1, (hp b (by simp)).trans h2, h3.congr ?_ ?_⟩
    · exact fun x hx => hn x (mem_cons_of_mem _ hx)
    · exact fun x hx => hp x (mem_cons_of_mem _ hx)

section Between
variable {pre post : List α} {x y z : α}

/-- Putting `y` between `x` and `z`. -/
theorem Linked.link (h : Linked m (pre ++ x :: z :: post)) (h1 : m'.next x = y) (h2 : m'.prev y = x)
    (h3 : m'.next y = z) (h4 : m'.prev z = y)
    (hpre : (∀ a ∈ pre, m'.next a = m.next a) ∧ ∀ b ∈ (pre ++ [x]).tail, m'.prev b = m.prev b)
    (hpost : (∀ a ∈ (z :: post).dropLast, m'.next a = m.next a) ∧ ∀ b ∈ post, m'.prev b = m.prev b) :
    Linked m' (pre ++ x :: y :: z :: post) := by
  rw [linked_append] at h ⊢
  exact ⟨h.1.congr (by simpa using hpre.1) hpre.2, h1, h2, h3, h4, h.2.2.2.congr hpost.1 hpost.2⟩

/-- Taking `y` out from between `x` and `z`. -/
theorem Linked.unlink (h : Linked m (pre ++ x :: y :: z :: post)) (h1 : m'.next x = z) (h2 : m'.prev z = x)
    (hpre : (∀ a ∈ pre, m'.next a = m.next a) ∧ ∀ b ∈ (pre ++ [x]).tail, m'.prev b = m.prev b)
    (hpost : (∀ a ∈ (z :: post).dropLast, m'.next a = m.next a) ∧ ∀ b ∈ post, m'.prev b = m.prev b) :
    Linked m' (pre ++ x :: z :: post) := by
  rw [linked_append] at h ⊢
  exact ⟨h.1.congr (by simpa using hpre.1) hpre.2, h1, h2, h.2.2.2.2.2.congr hpost.1 hpost.2⟩

end Between

/-- The head `h` holds the nodes `l`. -/
structure Ring (m : Links α) (h : α) (l : List α) : Prop where
  linked : Linked m (h :: l ++ [h])
  nodup : (h :: l).Nodup

namespace Ring
variable {h : α} {l : List α}

theorem congr (hr : Ring m h l) (hn : ∀ a ∈ h :: l, m'.next a = m.next a) (hp : ∀ a ∈ h :: l, m'.prev a = m.prev a) :
    Ring m' h l := by
  refine ⟨hr.linked.congr (fun a ha => hn a ?_) (fun a ha => hp a ?_), hr.nodup⟩
  · rwa [dropLast_concat] at ha
  · rw [cons_append, tail_cons] at ha
    simp only [mem_append, mem_singleton] at ha
    simp only [mem_cons]
    exact ha.symm

theorem next_head (hr : Ring m h l) : m.next h = (l ++ [h]).head (by simp) := by
  have hl := hr.linked
  cases l with
  | nil | cons a l => exact hl.1

theorem prev_head {pre : List α} {x : α} (hr : Ring m h l) (hx : h :: l = pre ++ [x]) : m.prev h = x := by
  have hl := hr.linked
  rw [hx, append_assoc, singleton_append, linked_append] at hl
  exact hl.2.2.1

theorem around {k : List α} {q : α} (hr : Ring m h (l ++ q :: k)) : ∃ pre x z post,
    h :: l = pre ++ [x] ∧ k ++ [h] = z :: post ∧ m.next x = q ∧ m.prev q = x ∧ m.next q = z ∧ m.prev z = q := by
  obtain ⟨pre, x, hx⟩ := (eq_nil_or_concat' (h :: l)).resolve_left (by simp)
  obtain ⟨z, post, hz⟩ := exists_cons_of_ne_nil (l := k ++ [h]) (by simp)
  have hl := hr.linked
  rw [cons_append, append_assoc, cons_append, hz, ← cons_append, hx, append_assoc,
    singleton_append, linked_append] at hl
  exact ⟨pre, x, z, post, hx, hz, hl.2.1, hl.2.2.1, hl.2.2.2.1, hl.2.2.2.2.1⟩

section Between
variable {pre post k : List α} {x z q : α}

theorem sides (hx : h :: l = pre ++ [x]) (hz : k ++ [h] = z :: post) (hnd : (h :: (l ++ k)).Nodup) :
    x ∉ pre ∧ z ∉ l ∧ x ∉ k ∧ z ∉ post ∧ x ∈ h :: l ∧ (z ∈ k ∨ z = h) := by
  have hx' : x ∈ h :: l := by rw [hx]; simp
  have hz' : z ∈ k ++ [h] := by rw [hz]; simp
  have h1 : (pre ++ [x]).Nodup := hx ▸ hnd.sublist (by simp)
  have h2 : (z :: post).Nodup := by
    rw [← hz]
    refine nodup_append.2 ⟨hnd.sublist (by simp), by simp, fun a ha b hb e => ?_⟩
    rw [mem_singleton.1 hb] at e
    exact (nodup_cons.1 hnd).1 (mem_append_right _ (e ▸ ha))
  simp only [nodup_cons, nodup_append, mem_append, mem_cons, not_or] at *
  refine ⟨fun h => h1.2.2 x h x (.inl rfl) rfl, fun h => ?_, fun h => ?_, h2.1, hx', hz'.imp_right fun e => ?_⟩
  · rcases hz' with h' | h'
    · exact hnd.2.2.2 z h z h' rfl
    · simp_all
  · rcases hx' with h' | h'
    · simp_all
    · exact hnd.2.2.2 x h' x h rfl
  · simpa using e

theorem split_eq (hx : h :: l = pre ++ [x]) (k : List α) : h :: (l ++ k) ++ [h] = pre ++ x :: (k ++ [h]) := by
  rw [cons_append, append_assoc, ← cons_append, hx, append_assoc, singleton_append]

/-- Stores into `next` of `x` and `prev` of `z` do not touch the pointers away from there. -/
theorem away (hx : h :: l = pre ++ [x]) (hz : k ++ [h] = z :: post) (hnd : (h :: (l ++ k)).Nodup)
    (hn : ∀ a ∈ h :: (l ++ k), a ≠ x → m'.next a = m.next a)
    (hp : ∀ a ∈ h :: (l ++ k), a ≠ z → m'.prev a = m.prev a) :
    ((∀ a ∈ pre, m'.next a = m.next a) ∧ ∀ b ∈ (pre ++ [x]).tail, m'.prev b = m.prev b) ∧
      (∀ a ∈ (z :: post).dropLast, m'.next a = m.next a) ∧ ∀ b ∈ post, m'.prev b = m.prev b := by
  obtain ⟨s1, s2, s3, s4, -, -⟩ := sides hx hz hnd
  have hpre : ∀ a ∈ pre, a ∈ h :: l := fun a ha => by rw [hx]; exact mem_append_left _ ha
  have hpost : ∀ b ∈ post, b ∈ k ++ [h] := fun b hb => by rw [hz]; exact mem_cons_of_mem _ hb
  rw [← hx, ← hz, dropLast_concat]
  simp only [mem_cons, mem_append] at *
  refine ⟨⟨fun a ha => hn a ?_ ?_, fun b hb => hp b ?_ ?_⟩, fun a ha => hn a ?_ ?_, fun b hb => hp b ?_ ?_⟩
  · exact (hpre a ha).imp_right .inl
  · exact fun e => s1 (e ▸ ha)
  · exact .inr (.inl hb)
  · exact fun e => s2 (e ▸ hb)
  · exact .inr (.inr ha)
  · exact fun e => s3 (e ▸ ha)
  · exact (hpost b hb).elim (fun h => .inr (.inr h)) fun h => .inl (by simpa using h)
  · exact fun e => s4 (e ▸ hb)

/-- Putting `q` into a ring. -/
theorem insert (hr : Ring m h (l ++ k)) (hx : h :: l = pre ++ [x]) (hz : k ++ [h] = z :: post)
    (hq : q ∉ h :: (l ++ k)) (h1 : m'.next x = q) (h2 : m'.prev q = x) (h3 : m'.next q = z) (h4 : m'.prev z = q)
    (hn : ∀ a ∈ h :: (l ++ k), a ≠ x → m'.next a = m.next a)
    (hp : ∀ a ∈ h :: (l ++ k), a ≠ z → m'.prev a = m.prev a) : Ring m' h (l ++ q :: k) := by
  obtain ⟨hpre, hpost⟩ := away hx hz hr.nodup hn hp
  have hl := hr.linked
  rw [split_eq hx, hz] at hl
  refine ⟨?_, ?_⟩
  · rw [split_eq hx, cons_append, hz]
    exact hl.link h1 h2 h3 h4 hpre hpost
  · have hperm : (h :: (l ++ q :: k)).Perm (q :: h :: (l ++ k)) :=
      (perm_middle.cons h).trans (.swap _ _ _)
    exact hperm.nodup_iff.2 (nodup_cons.2 ⟨hq, hr.nodup⟩)

/-- Taking `q` out of a ring. -/
theorem erase (hr : Ring m h (l ++ q :: k)) (hx : h :: l = pre ++ [x]) (hz : k ++ [h] = z :: post)
    (h1 : m'.next x = z) (h2 : m'.prev z = x)
    (hn : ∀ a ∈ h :: (l ++ k), a ≠ x → m'.next a = m.next a)
    (hp : ∀ a ∈ h :: (l ++ k), a ≠ z → m'.prev a = m.prev a) : Ring m' h (l ++ k) := by
  have hnd : (h :: (l ++ k)).Nodup := hr.nodup.sublist (by simp)
  obtain ⟨hpre, hpost⟩ := away hx hz hnd hn hp
  have hl := hr.linked
  rw [split_eq hx, cons_append, hz] at hl
  refine ⟨?_, hnd⟩
  rw [split_eq hx, hz]
  exact hl.unlink h1 h2 hpre hpost

end Between

theorem next_head_eq_iff (hr : Ring m h l) : m.next h = h ↔ l = [] := by
  rw [hr.next_head]
  cases l with
  | nil => simp
  | cons a l =>
    have hne : a ≠ h := fun e => (nodup_cons.1 hr.nodup).1 (by simp [e])
    simpa using hne

end Ring

end Libuv
