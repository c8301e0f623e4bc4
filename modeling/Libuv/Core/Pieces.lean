import Mathlib.Data.List.Basic
import Mathlib.Tactic

/-!
# Cutting a list into pieces

`cut s` is where the first piece of `s` ends; the element there is a separator, and the other pieces are those of what
is behind it. With `cut` the place of the first `a` these are the pieces between the `a`s; a `cut` that looks further covers
separators that are quoted.
-/
namespace Libuv.Pieces

variable {α : Type*} (cut : List α → ℕ)

def pieces (s : List α) : List (List α) :=
  if s.length ≤ cut s then [s] else s.take (cut s) :: pieces (s.drop (cut s + 1))
termination_by s.length
decreasing_by
  rw [List.length_drop]
  omega

variable {cut} {s : List α} {a : α}

theorem pieces_of_le (h : s.length ≤ cut s) : pieces cut s = [s] := by rw [pieces, if_pos h]

theorem pieces_of_lt (h : cut s < s.length) : pieces cut s = s.take (cut s) :: pieces cut (s.drop (cut s + 1)) := by
  rw [pieces, if_neg (not_le.2 h)]

end Libuv.Pieces
