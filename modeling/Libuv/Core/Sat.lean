import Mathlib.Tactic.TypeStar

/-!
# Specifications of functions that may fail

`Sat Q E x`: the result of `x : Except ε α` satisfies `Q`, or its error satisfies `E`. The
rules follow the shape of the code: a specification of a sequence comes from one of its
first part and one, for every result the first allows, of the rest.
-/
namespace Libuv

universe u v

variable {ε : Type u} {α β : Type v}

def Sat (Q : α → Prop) (E : ε → Prop) : Except ε α → Prop
  | .ok a => Q a
  | .error e => E e

namespace Sat

variable {Q : α → Prop} {E : ε → Prop} {x : Except ε α}



theorem bind {R : β → Prop} {f : α → Except ε β} (hx : Sat Q E x) (hf : ∀ a, Q a → Sat R E (f a)) :
    Sat R E (x >>= f) := by
  cases x with
  | ok a => exact hf a hx
  | error e => exact hx

theorem mono {Q' : α → Prop} {E' : ε → Prop} (hx : Sat Q E x) (hQ : ∀ a, Q a → Q' a)
    (hE : ∀ e, E e → E' e) : Sat Q' E' x := by
  cases x with
  | ok a => exact hQ a hx
  | error e => exact hE e hx

theorem ite {c : Prop} [Decidable c] {y : Except ε α} (hx : c → Sat Q E x) (hy : ¬ c → Sat Q E y) :
    Sat Q E (if c then x else y) := by
  split
  · exact hx ‹c›
  · exact hy ‹¬ c›

theorem of_ok {a : α} (hx : Sat Q E x) (h : x = .ok a) : Q a := by
  rw [h] at hx; exact hx

theorem of_error {e : ε} (hx : Sat Q E x) (h : x = .error e) : E e := by
  rw [h] at hx; exact hx

end Sat

end Libuv
