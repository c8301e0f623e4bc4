import Mathlib.Data.List.Basic
import Mathlib.Tactic.Ring

/-!
# Files as lists

What a file system does with the contents of a file: reading at a position gives what is there, writing behind the end
leaves a hole that is filled with `z`, and the end can be set. Pieces that are written or read one behind the other are
the whole.

* `write_write`, `drop_read_add`: two writes, two reads.
* `write_resize`: a file may be extended before it is written.
* `scatter`: what was read, distributed over buffers.
-/
namespace Libuv.FlatFile

open List

variable {α : Type*} (z : α)

def resize (l : List α) (n : ℕ) : List α := l.take n ++ List.replicate (n - l.length) z

def write (l : List α) (pos : ℕ) (d : List α) : List α := resize z l pos ++ d ++ l.drop (pos + d.length)

def read (l : List α) (pos n : ℕ) : List α := (l.drop pos).take n

/-- `d` in buffers of these lengths, as far as it goes. -/
def scatter : List ℕ → List α → List (List α)
  | [], _ => []
  | n :: bufs, d => d.take n :: scatter bufs (d.drop n)

def total (bufs : List ℕ) : ℕ := bufs.foldr (· + ·) 0

@[simp] theorem length_resize (l : List α) (n : ℕ) : (resize z l n).length = n := by
  rw [resize, length_append, length_take, length_replicate]
  omega

theorem length_write (l : List α) (pos : ℕ) (d : List α) : (write z l pos d).length = max (pos + d.length) l.length := by
  rw [write, length_append, length_append, length_resize, length_drop]
  omega

theorem length_read (l : List α) (pos n : ℕ) : (read l pos n).length = min n (l.length - pos) := by
  rw [read, length_take, length_drop]

theorem resize_of_le {l : List α} {n : ℕ} (h : n ≤ l.length) : resize z l n = l.take n := by
  rw [resize, Nat.sub_eq_zero_of_le h, replicate_zero, append_nil]

theorem write_nil {l : List α} {pos : ℕ} (h : pos ≤ l.length) : write z l pos [] = l := by
  rw [write, resize_of_le z h, append_nil, length_nil, Nat.add_zero, take_append_drop]

theorem write_write (l : List α) (pos : ℕ) (a b : List α) :
    write z (write z l pos a) (pos + a.length) b = write z l pos (a ++ b) := by
  have hlen : (resize z l pos ++ a).length = pos + a.length := by rw [length_append, length_resize]
  have htake : resize z (write z l pos a) (pos + a.length) = resize z l pos ++ a := by
    rw [resize_of_le z (by rw [length_write]; omega), write, take_left' hlen]
  have hdrop : (write z l pos a).drop (pos + a.length + b.length) = l.drop (pos + (a ++ b).length) := by
    rw [write, drop_append, hlen, drop_eq_nil_of_le (by omega), nil_append, drop_drop, length_append]
    congr 1
    omega
  rw [write, htake, hdrop, write, append_assoc (resize z l pos)]

theorem write_resize {l d : List α} {pos : ℕ} (h : l.length ≤ pos + d.length) :
    write z (resize z l (pos + d.length)) pos d = write z l pos d := by
  have hres : resize z (resize z l (pos + d.length)) pos = resize z l pos := by
    rw [resize_of_le z (by rw [length_resize]; omega), resize, take_append, take_take, take_replicate,
      length_take, resize]
    congr 2
    · omega
    · omega
  rw [write, hres, drop_eq_nil_of_le (by rw [length_resize]), write, drop_eq_nil_of_le h]

theorem read_zero (l : List α) (pos : ℕ) : read l pos 0 = [] := take_zero

theorem length_read_le (l : List α) (pos n : ℕ) : (read l pos n).length ≤ n := by
  rw [length_read]
  omega

theorem take_read (l : List α) (pos n m : ℕ) : (read l pos n).take m = read l pos (min m n) := by
  rw [read, read, take_take]

theorem drop_read (l : List α) (pos n m : ℕ) : (read l pos n).drop m = read l (pos + min m n) (n - min m n) := by
  rcases Nat.le_total m n with h | h
  · rw [Nat.min_eq_left h, read, read, drop_take, drop_drop]
  · rw [Nat.min_eq_right h, Nat.sub_self]
    exact drop_eq_nil_of_le ((length_read_le l pos n).trans h)

theorem drop_read_add (l : List α) (pos n m : ℕ) :
    (read l pos (n + m)).drop n = read l (pos + (read l pos n).length) m := by
  rw [length_read]
  rcases Nat.le_total n (l.length - pos) with h | h
  · rw [Nat.min_eq_left h, read, read, drop_take, drop_drop, Nat.add_sub_cancel_left]
  · have hend : l.drop (pos + (l.length - pos)) = [] := drop_eq_nil_of_le (by omega)
    rw [Nat.min_eq_right h, read, read, hend, take_nil]
    exact drop_eq_nil_of_le (by rw [length_take, length_drop]; omega)

theorem read_add (l : List α) (pos n m : ℕ) :
    read l pos (n + m) = read l pos n ++ read l (pos + (read l pos n).length) m := by
  have htake := take_read l pos (n + m) n
  rw [Nat.min_eq_left (Nat.le_add_right n m)] at htake
  rw [← drop_read_add, ← htake, take_append_drop]

theorem length_read_add (l : List α) (pos n m : ℕ) :
    (read l pos (n + m)).length = (read l pos n).length + (read l (pos + (read l pos n).length) m).length := by
  rw [read_add, length_append]

theorem read_eq_nil {l : List α} {pos : ℕ} (h : l.length ≤ pos) (n : ℕ) : read l pos n = [] := by
  rw [read, drop_eq_nil_of_le h, take_nil]

theorem read_min (l : List α) (pos n : ℕ) : read l pos (min n (l.length - pos)) = read l pos n := by
  rw [read, read, ← length_drop, ← take_take, take_length]

theorem scatter_nil : ∀ bufs : List ℕ, scatter bufs ([] : List α) = bufs.map fun _ => []
  | [] => rfl
  | n :: bufs => by
    rw [scatter, take_nil, drop_nil, scatter_nil bufs, map_cons]

end Libuv.FlatFile
