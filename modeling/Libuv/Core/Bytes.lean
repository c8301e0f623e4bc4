import Mathlib.Data.List.Basic
import Mathlib.Tactic

/-!
# Blocks of a flat memory

A memory gives every address a value. `load m p n` is the block of length `n` at `p`, and `store m p bs` the memory with `bs` there.

* `load_eq_iff`: what a block holds, place by place.
* `load_store`, `load_store_of_disjoint`: a block that has been written, and one beside it.
-/
namespace Libuv.Bytes

variable {α : Type*}

def load (m : ℕ → α) (p n : ℕ) : List α := (List.range n).map fun i => m (p + i)

def store (m : ℕ → α) (p : ℕ) (bs : List α) (a : ℕ) : α :=
  if p ≤ a then (bs[a - p]?).getD (m a) else m a

variable {m m' : ℕ → α} {p q n k a : ℕ} {bs cs : List α}

@[simp] theorem length_load : (load m p n).length = n := by simp [load]

@[simp] theorem load_zero : load m p 0 = [] := rfl

theorem getElem?_load {i : ℕ} (h : i < n) : (load m p n)[i]? = some (m (p + i)) := by
  simp [load, h]

theorem load_add : load m p (n + k) = load m p n ++ load m (p + n) k := by
  simp [load, List.range_add, Nat.add_assoc]

theorem load_congr (h : ∀ i < n, m' (p + i) = m (p + i)) : load m' p n = load m p n :=
  List.map_congr_left fun i hi => h i (List.mem_range.1 hi)

/-- A block holds `bs` if each place holds what `bs` has there. -/
theorem load_eq_iff (hn : bs.length = n) : load m p n = bs ↔ ∀ i < n, some (m (p + i)) = bs[i]? := by
  constructor
  · rintro rfl i hi
    exact (getElem?_load hi).symm
  · intro h
    refine List.ext_getElem? fun i => ?_
    rcases lt_or_ge i n with hi | hi
    · rw [getElem?_load hi, h i hi]
    · rw [List.getElem?_eq_none (by simpa using hi), List.getElem?_eq_none (by omega)]

theorem load_eq_append (hn : bs.length = n) :
    load m p (n + k) = bs ++ cs ↔ load m p n = bs ∧ load m (p + n) k = cs := by
  rw [load_add]
  exact ⟨fun h => List.append_inj h (by simp [hn]), fun h => by rw [h.1, h.2]⟩

theorem store_of_lt (h : a < p) : store m p bs a = m a := if_neg (not_le.2 h)

theorem store_of_ge (h : p + bs.length ≤ a) : store m p bs a = m a := by
  unfold store
  split
  · rw [List.getElem?_eq_none (by omega), Option.getD_none]
  · rfl

theorem store_of_mem {i : ℕ} (h : i < bs.length) : store m p bs (p + i) = bs[i] := by
  rw [store, if_pos (Nat.le_add_right p i), Nat.add_sub_cancel_left, List.getElem?_eq_getElem h, Option.getD_some]

theorem load_store_take (hn : n ≤ bs.length) : load (store m p bs) p n = bs.take n := by
  rw [load_eq_iff (List.length_take_of_le hn)]
  intro i hi
  rw [store_of_mem (by omega), List.getElem?_take_of_lt hi, List.getElem?_eq_getElem]

theorem load_store (m : ℕ → α) (p : ℕ) (bs : List α) : load (store m p bs) p bs.length = bs := by
  rw [load_store_take le_rfl, List.take_length]

theorem load_store_of_disjoint (h : q + n ≤ p ∨ p + bs.length ≤ q) : load (store m p bs) q n = load m q n := by
  refine load_congr fun i hi => ?_
  rcases h with h | h
  · exact store_of_lt (by omega)
  · exact store_of_ge (by omega)

end Libuv.Bytes
