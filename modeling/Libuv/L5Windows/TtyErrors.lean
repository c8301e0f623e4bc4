import Libuv.L5Windows.TtyWrite

/-!
# Errors of a console (`win/tty.c`)

`TtyWrite` takes an action for one call of the console. Here are the functions behind the actions, with each of their calls:
`Answer` is what the console makes of a call, and a function of type `M` waits where it has no more answers. The first error
goes to `*error`; from then on nothing more is to be put out.

Where the console has been resized between the query and the call that uses it, the call fails with
`ERROR_INVALID_PARAMETER`, and both are made again: such a call is `resized`, and has not failed. `unfilled` is a use of what
a failed query has not filled in.

`uv__tty_move_caret` sets the error of a query that fails, and goes on. `uv__tty_set_style`, `uv__tty_set_cursor_visibility` and
`uv__tty_set_cursor_shape` do not look at the error that is there.

* `Keeps`: a triple over the calls up to the first failure.
* `stop_iff`: nothing more is put out after a failed call, whatever the console has to say then, if and only if it is not the
  query for a caret move, and none of the three functions has anything to do any more.
-/
namespace Libuv.L5.TtyErrors

open TtyWrite List Option

def ERROR_INVALID_PARAMETER : UInt32 := 87

/-! ## The console -/

/-- `COORD` -/
structure Coord where
  x : ℤ
  y : ℤ
deriving DecidableEq

/-- `CONSOLE_SCREEN_BUFFER_INFO`, with the rows of `srWindow`. -/
structure Info where
  dwSize : Coord
  dwCursorPosition : Coord
  wAttributes : UInt16
  top : ℤ
  bottom : ℤ
deriving DecidableEq

/-- `CONSOLE_CURSOR_INFO` -/
structure CursorInfo where
  dwSize : UInt32
  bVisible : Bool
deriving DecidableEq

inductive Api
  | writeConsole (units : List UInt16)
  | getScreenBufferInfo
  | setCursorPosition (pos : Coord)
  | setTextAttribute (attributes : UInt16)
  | fillOutputCharacter (count : ℤ) (start : Coord)
  | fillOutputAttribute (attributes : UInt16) (count : ℤ) (start : Coord)
  | getCursorInfo
  | setCursorInfo (info : CursorInfo)
deriving DecidableEq

def Api.output : Api → Bool
  | .getScreenBufferInfo => false
  | .getCursorInfo => false
  | _ => true

/-- What a call comes back with: its error, which is 0 if there is none, and what it has filled in if there is none. -/
structure Answer where
  error : UInt32
  info : Info
  cursor : CursorInfo
  written : ℤ
deriving DecidableEq

inductive Outcome
  | ok
  | resized
  | failed (e : UInt32)
deriving DecidableEq

inductive Event
  | call (a : Api) (o : Outcome)
  | unfilled
deriving DecidableEq

def Event.output : Event → Bool
  | .call a _ => a.output
  | .unfilled => false

/-- `uv_tty_virtual_offset`, `uv_tty_virtual_width`, `uv_tty_virtual_height` -/
structure Window where
  offset : ℤ
  width : ℤ
  height : ℤ
deriving DecidableEq

/-- How the console was when it was opened first. -/
structure Defaults where
  textAttributes : UInt16
  fgColor : UInt16
  bgColor : UInt16
  fgBright : Bool
  bgBright : Bool
  inverse : Bool
  cursorInfo : CursorInfo
deriving DecidableEq

/-- `garbage`: what is in a local variable before it is set. -/
structure Console where
  defaults : Defaults
  garbage : Info
deriving DecidableEq

/-- `*error`, `utf16_buf[0, utf16_buf_used)`, the window, and what `uv__tty_save_state` has left in the handle. -/
structure Con where
  log : List Event
  error : UInt32
  units : List UInt16
  window : Window
  savedPosition : Option Coord
  savedAttributes : Option UInt16
deriving DecidableEq

inductive Res (α : Type)
  | done (a : α) (c : Con) (rest : List Answer)
  | wait (c : Con)
deriving DecidableEq

namespace Res
variable {α β : Type}

def con : Res α → Con
  | .done _ c _ => c
  | .wait c => c

def bind (r : Res α) (f : α → Con → List Answer → Res β) : Res β :=
  match r with
  | .done a c rest => f a c rest
  | .wait c => .wait c

end Res

def M (α : Type) : Type := Con → List Answer → Res α

instance : Monad M where
  pure a := fun c as => .done a c as
  bind m f := fun c as => (m c as).bind f

def getCon : M Con := fun c as => .done c c as

def update (f : Con → Con) : M Unit := fun c as => .done () (f c) as

/-- `retried`: the caller makes the call again where the console has been resized. -/
def outcome (retried : Bool) (e : UInt32) : Outcome :=
  if e = 0 then .ok else if retried ∧ e = ERROR_INVALID_PARAMETER then .resized else .failed e

def call (a : Api) (retried : Bool) : M Answer := fun c as =>
  match as with
  | [] => .wait c
  | r :: rest => .done r { c with log := c.log ++ [.call a (outcome retried r.error)] } rest

/-- `*error = GetLastError(); return -1;` The result is whether the function returns 0. -/
def fail (e : UInt32) : M Bool := do
  update fun c => { c with error := e }
  return false

/-- A call, and what is done if it does not fail. -/
def attempt (a : Api) (f : Answer → M Bool) : M Bool := do
  let r ← call a false
  if r.error ≠ 0 then fail r.error else f r

/-- A call that leads back to the label `retry` if it fails as after a change of size. -/
def attemptAgain (a : Api) (info : Info) (f : Answer → M (Info ⊕ Bool)) : M (Info ⊕ Bool) := do
  let r ← call a true
  if r.error = 0 then f r
  else if r.error = ERROR_INVALID_PARAMETER then return .inl info
  else return .inr (← fail r.error)

/-- The rounds from the label `retry` on, with the local variable that they fill in. -/
def rounds (round : Info → M (Info ⊕ Bool)) : ℕ → Info → M Bool
  | 0, _ => fun c _ => .wait c
  | n + 1, info => do
    match ← round info with
    | .inl info => rounds round n info
    | .inr b => return b

/-- As many rounds as there are answers; each takes one. -/
def retry (round : Info → M (Info ⊕ Bool)) (info : Info) : M Bool := fun c as => rounds round as.length info c as

/-- `if (*error != ERROR_SUCCESS) return -1;` -/
def unlessError (m : M Bool) : M Bool := do
  let c ← getCon
  if c.error ≠ 0 then return false else m

/-! ## The functions -/

/-- mirrors win/tty.c:1140-1160 -/
def updateVirtualWindow (w : Window) (info : Info) : Window :=
  let height := info.bottom - info.top + 1
  let offset :=
    if w.offset = -1 then info.dwCursorPosition.y
    else if w.offset < info.dwCursorPosition.y - height + 1 then info.dwCursorPosition.y - height + 1
    else w.offset
  let offset := if info.dwSize.y < offset + height then info.dwSize.y - height else offset
  ⟨if offset < 0 then 0 else offset, info.dwSize.x, height⟩

/-- A coordinate is a `SHORT`.
mirrors win/tty.c:1163-1197 -/
def realCoord (w : Window) (info : Info) (x : ℤ) (xRelative : Bool) (y : ℤ) (yRelative : Bool) : Coord :=
  let y := if yRelative then info.dwCursorPosition.y + y else w.offset + y
  let y := if y < w.offset then w.offset else if w.offset + w.height ≤ y then w.offset + w.height - 1 else y
  let x := if xRelative then info.dwCursorPosition.x + x else x
  let x := if x < 0 then 0 else if w.width ≤ x then w.width - 1 else x
  ⟨x.bmod (2 ^ 16), y.bmod (2 ^ 16)⟩

def makeRealCoord (info : Info) (x : ℤ) (xRelative : Bool) (y : ℤ) (yRelative : Bool) : M Coord := do
  update fun c => { c with window := updateVirtualWindow c.window info }
  let c ← getCon
  return realCoord c.window info x xRelative y yRelative

/-- mirrors win/tty.c:1200-1218 -/
def emitText : M Bool := unlessError do
  let c ← getCon
  attempt (.writeConsole c.units) fun _ => pure true

/-- The query of a caret move; it does not return if it fails. -/
def caretQuery (info : Info) : M Info := do
  let r ← call .getScreenBufferInfo false
  if r.error = 0 then return r.info
  else do
    update fun c => { c with error := r.error, log := c.log ++ [.unfilled] }
    return info

/-- mirrors win/tty.c:1230-1245 -/
def caretRound (x : ℤ) (xRelative : Bool) (y : ℤ) (yRelative : Bool) (info : Info) : M (Info ⊕ Bool) := do
  let info ← caretQuery info
  let pos ← makeRealCoord info x xRelative y yRelative
  attemptAgain (.setCursorPosition pos) info fun _ => return .inr true

/-- mirrors win/tty.c:1221-1248 -/
def moveCaret (k : Console) (x : ℤ) (xRelative : Bool) (y : ℤ) (yRelative : Bool) : M Bool :=
  unlessError (retry (caretRound x xRelative y yRelative) k.garbage)

/-- The rounds of `uv__tty_reset` and `uv__tty_clear`: an area is filled with blanks, and with attributes as far as there were
blanks. `last` is what comes after them.
mirrors win/tty.c:1274-1303, 1361-1391 -/
def fillRound (area : Info → M (ℤ × Coord)) (attributes : Info → UInt16) (last : Info → M Unit) (_ : Info) :
    M (Info ⊕ Bool) := do
  let r ← call .getScreenBufferInfo false
  if r.error ≠ 0 then return .inr (← fail r.error)
  else do
    let (count, start) ← area r.info
    attemptAgain (.fillOutputCharacter count start) r.info fun r' =>
      attemptAgain (.fillOutputAttribute (attributes r.info) r'.written start) r.info fun _ => do
        last r.info
        return .inr true

def origin : Coord := ⟨0, 0⟩

/-- A `DWORD`. -/
def dword (z : ℤ) : ℤ := z % 2 ^ 32

/-- mirrors win/tty.c:1251-1312 -/
def reset (k : Console) : M Bool := unlessError do
  attempt (.setTextAttribute k.defaults.textAttributes) fun _ =>
    attempt (.setCursorPosition origin) fun _ => do
      let area (info : Info) : M (ℤ × Coord) := return (dword (info.dwSize.x * info.dwSize.y), origin)
      let last (info : Info) : M Unit :=
        update fun c => { c with window := updateVirtualWindow { c.window with offset := 0 } info }
      if ← retry (fillRound area (fun _ => k.defaults.textAttributes) last) k.garbage then
        attempt (.setCursorInfo k.defaults.cursorInfo) fun _ => pure true
      else return false

/-- mirrors win/tty.c:1315-1392 -/
def clear (k : Console) (dir : ℤ) (entireScreen : Bool) : M Bool := unlessError do
  let (x₁, x₁r) := if dir = 0 then (0, true) else (0, false)
  let (x₂, x₂r) := if dir = 1 then (0, true) else (0xffff, false)
  let (y₁, y₁r, y₂, y₂r) := if entireScreen then (x₁, x₁r, x₂, x₂r) else (0, true, 0, true)
  let area (info : Info) : M (ℤ × Coord) := do
    let start ← makeRealCoord info x₁ x₁r y₁ y₁r
    let stop ← makeRealCoord info x₂ x₂r y₂ y₂r
    return (dword (stop.y * info.dwSize.x + stop.x - (start.y * info.dwSize.x + start.x) + 1), start)
  retry (fillRound area Info.wAttributes fun _ => pure ()) k.garbage

/-! ### Styles -/

/-- What is to change; `none` is -1. -/
structure Style where
  fgColor : Option UInt16
  bgColor : Option UInt16
  fgBright : Option Bool
  bgBright : Option Bool
  inverse : Option Bool
deriving DecidableEq

def Style.unchanged : Style := ⟨none, none, none, none, none⟩

def Defaults.style (d : Defaults) : Style := ⟨some d.fgColor, some d.bgColor, some d.fgBright, some d.bgBright, some d.inverse⟩

/-- mirrors win/tty.c:1420-1484 -/
def Style.arg (d : Defaults) (s : Style) (arg : UInt16) : Style :=
  if arg = 0 then d.style
  else if arg = 1 then { s with fgBright := some true }
  else if arg = 2 then { s with fgBright := some false, bgBright := some false }
  else if arg = 5 then { s with bgBright := some true }
  else if arg = 7 then { s with inverse := some true }
  else if arg = 21 ∨ arg = 22 then { s with fgBright := some false }
  else if arg = 25 then { s with bgBright := some false }
  else if arg = 27 then { s with inverse := some false }
  else if 30 ≤ arg ∧ arg ≤ 37 then { s with fgColor := some (arg - 30) }
  else if arg = 39 then { s with fgColor := some d.fgColor, fgBright := some d.fgBright }
  else if 40 ≤ arg ∧ arg ≤ 47 then { s with bgColor := some (arg - 40) }
  else if arg = 49 then { s with bgColor := some d.bgColor, bgBright := some d.bgBright }
  else if 90 ≤ arg ∧ arg ≤ 97 then { s with fgBright := some true, fgColor := some (arg - 90) }
  else if 100 ≤ arg ∧ arg ≤ 107 then { s with bgBright := some true, bgColor := some (arg - 100) }
  else s

/-- mirrors win/tty.c:1411-1484 -/
def style (d : Defaults) (args : List UInt16) : Style :=
  args.foldl (Style.arg d) (if args = [] then d.style else .unchanged)

def FOREGROUND_BLUE : UInt16 := 0x0001
def FOREGROUND_GREEN : UInt16 := 0x0002
def FOREGROUND_RED : UInt16 := 0x0004
def FOREGROUND_INTENSITY : UInt16 := 0x0008
def BACKGROUND_BLUE : UInt16 := 0x0010
def BACKGROUND_GREEN : UInt16 := 0x0020
def BACKGROUND_RED : UInt16 := 0x0040
def BACKGROUND_INTENSITY : UInt16 := 0x0080
def COMMON_LVB_REVERSE_VIDEO : UInt16 := 0x4000

/-- `FLIP_FGBG`, where the attributes say so. -/
def flip (w : UInt16) : UInt16 :=
  let fg : UInt16 := w &&& 0x0f
  let bg : UInt16 := w &&& 0xf0
  if w &&& COMMON_LVB_REVERSE_VIDEO = 0 then w else (w &&& (0xff00 : UInt16)) ||| fg <<< 4 ||| bg >>> 4

def setColor (w color red green blue : UInt16) : UInt16 :=
  (w &&& ~~~ (red ||| green ||| blue)) ||| (if color &&& 1 ≠ 0 then red else 0) |||
    (if color &&& 2 ≠ 0 then green else 0) ||| (if color &&& 4 ≠ 0 then blue else 0)

def setBit (w bit : UInt16) (on : Bool) : UInt16 := if on then w ||| bit else w &&& ~~~ bit

/-- mirrors win/tty.c:1497-1546 -/
def Style.attributes (s : Style) (w : UInt16) : UInt16 :=
  let w := flip w
  let w := s.fgColor.elim w fun color => setColor w color FOREGROUND_RED FOREGROUND_GREEN FOREGROUND_BLUE
  let w := s.fgBright.elim w (setBit w FOREGROUND_INTENSITY)
  let w := s.bgColor.elim w fun color => setColor w color BACKGROUND_RED BACKGROUND_GREEN BACKGROUND_BLUE
  let w := s.bgBright.elim w (setBit w BACKGROUND_INTENSITY)
  let w := s.inverse.elim w (setBit w COMMON_LVB_REVERSE_VIDEO)
  flip w

/-- mirrors win/tty.c:1403-1554 -/
def setStyle (k : Console) (args : List UInt16) : M Bool :=
  if style k.defaults args = .unchanged then pure true
  else
    attempt .getScreenBufferInfo fun r =>
      attempt (.setTextAttribute ((style k.defaults args).attributes r.info.wAttributes)) fun _ => pure true

/-! ### The state of the cursor -/

/-- mirrors win/tty.c:1557-1586 -/
def saveState (saveAttributes : Bool) : M Bool := unlessError do
  attempt .getScreenBufferInfo fun r => do
    update fun c =>
      let window := updateVirtualWindow c.window r.info
      { c with
        window := window
        savedPosition := some ⟨r.info.dwCursorPosition.x, (r.info.dwCursorPosition.y - window.offset).bmod (2 ^ 16)⟩
        savedAttributes :=
          if saveAttributes then some (r.info.wAttributes &&& (FOREGROUND_INTENSITY ||| BACKGROUND_INTENSITY))
          else c.savedAttributes }
    return true

/-- The second half of `uv__tty_restore_state`.
mirrors win/tty.c:1609-1624 -/
def restoreStyle (restoreAttributes : Bool) : M Bool := do
  match restoreAttributes, (← getCon).savedAttributes with
  | true, some saved =>
    attempt .getScreenBufferInfo fun r =>
      attempt (.setTextAttribute
        (r.info.wAttributes &&& ~~~ (FOREGROUND_INTENSITY ||| BACKGROUND_INTENSITY) ||| saved)) fun _ => pure true
  | _, _ => return true

/-- mirrors win/tty.c:1589-1627 -/
def restoreState (k : Console) (restoreAttributes : Bool) : M Bool := unlessError do
  match (← getCon).savedPosition with
  | some pos =>
    if ← moveCaret k pos.x false pos.y false then restoreStyle restoreAttributes else return false
  | none => restoreStyle restoreAttributes

/-- mirrors win/tty.c:1629-1648 -/
def setCursorVisibility (visible : Bool) : M Bool :=
  attempt .getCursorInfo fun r => attempt (.setCursorInfo ⟨r.cursor.dwSize, visible⟩) fun _ => pure true

def CURSOR_SIZE_SMALL : UInt32 := 25
def CURSOR_SIZE_LARGE : UInt32 := 100

/-- mirrors win/tty.c:1650-1672 -/
def setCursorShape (k : Console) (shape : ℤ) : M Bool :=
  attempt .getCursorInfo fun r =>
    let size :=
      if shape = 0 then k.defaults.cursorInfo.dwSize else if shape ≤ 2 then CURSOR_SIZE_LARGE else CURSOR_SIZE_SMALL
    attempt (.setCursorInfo ⟨size, r.cursor.bVisible⟩) fun _ => pure true

def act (k : Console) : Action → M Bool
  | .reset => reset k
  | .saveState attributes => saveState attributes
  | .restoreState attributes => restoreState k attributes
  | .setCursorShape shape => setCursorShape k shape
  | .setCursorVisibility visible => setCursorVisibility visible
  | .moveCaret x xRelative y yRelative => moveCaret k x xRelative y yRelative
  | .clear dir entireScreen => clear k dir entireScreen
  | .setStyle args => setStyle k args

/-! ## `uv__tty_write_bufs` -/

inductive Op
  | flush
  | put (units : List UInt16)
  | act (a : Action)
deriving DecidableEq

/-- mirrors win/tty.c:1684-1690 (`FLUSH_TEXT`) -/
def flushText : M Unit := do
  let c ← getCon
  if 0 < c.units.length then do
    let _ ← emitText
    update fun c => { c with units := [] }
  else pure ()

/-- mirrors win/tty.c:1692-1695 (`ENSURE_BUFFER_SPACE`) -/
def ensureBufferSpace (wcharsNeeded : ℕ) : M Unit := do
  let c ← getCon
  if MAX_CONSOLE_CHAR - c.units.length < wcharsNeeded then flushText else pure ()

def Op.exec (k : Console) : Op → M Unit
  | .flush => flushText
  | .put us => do
    ensureBufferSpace us.length
    update fun c => { c with units := c.units ++ us }
  | .act a => do
    let _ ← TtyErrors.act k a

def exec (k : Console) : List Op → M Unit
  | [] => pure ()
  | o :: ops => do
    o.exec k
    exec k ops

/-- `FLUSH_TEXT()` goes before each action. -/
def ops : Reaction → List Op
  | .nothing => []
  | .flush => [.flush]
  | .control a => [.flush, .act a]
  | .put us => [.put us]

def scanBufs (env : Env) (k : Console) : List UvBuf → Wr × Res Unit → Option (Wr × Res Unit)
  | [], s => some s
  | buf :: bufs, s => do
    let s ← scanWith env (fun r q => r.bind fun _ => exec k (ops q)) buf.base (2 * buf.base.length + 1) 0 s.1 s.2
    scanBufs env k bufs s

/-- One call. Where it waits for the console the handle is still in use.
mirrors win/tty.c:1674-2185 -/
def writeBufs (env : Env) (k : Console) (h : Wr) (bufs : List UvBuf) (c : Con) (as : List Answer) : Option (Wr × Res Unit) := do
  let s ← scanBufs env k bufs (h, .done () { c with log := [], error := 0, units := [] } as)
  return (s.1, s.2.bind fun _ => Op.flush.exec k)

section
variable {α β : Type} {m : M α} {c : Con} {as : List Answer}

theorem bind_apply (f : α → M β) : (m >>= f) c as = (m c as).bind f := rfl

theorem getCon_apply : getCon c as = .done c c as := rfl

end

/-! ## Operations one after the other -/

theorem exec_append (k : Console) (os os' : List Op) : exec k (os ++ os') = exec k os >>= fun _ => exec k os' := by
  induction os with
  | nil => rfl
  | cons o os ih =>
    funext c as
    simp only [cons_append, exec, ih, bind_apply]
    cases o.exec k c as with
    | wait c' | done _ c' rest => rfl

theorem exec_cons_done {k : Console} {o : Op} {os : List Op} {c c' : Con} {as rest : List Answer} {u : Unit}
    (h : o.exec k c as = .done u c' rest) : exec k (o :: os) c as = exec k os c' rest := by
  rw [exec, bind_apply, h]
  rfl

theorem foldl_ops (k : Console) (rs : List Reaction) (r : Res Unit) :
    rs.foldl (fun r q => r.bind fun _ => exec k (ops q)) r = r.bind fun _ => exec k (rs.flatMap ops) := by
  induction rs generalizing r with
  | nil => cases r with
    | wait c | done u c rest => rfl
  | cons q rs ih =>
    rw [foldl_cons, ih]
    cases r with
    | wait c => rfl
    | done u c rest =>
      simp [Res.bind, exec_append, bind_apply]

def opsOf (rs : List Reaction) : List Op := rs.flatMap ops ++ [.flush]

def Con.start (c : Con) : Con := { c with log := [], error := 0, units := [] }

section
variable {env : Env} {k : Console}

theorem scanBufs_execs {bufs : List UvBuf} {h : Wr} {r : Res Unit} {x : Wr × List Reaction}
    (hx : feedAll env h (bytesOf bufs) = some x) :
    scanBufs env k bufs (h, r) = some (x.1, x.2.foldl (fun r q => r.bind fun _ => exec k (ops q)) r) := by
  induction bufs generalizing h r x with
  | nil =>
    cases some.inj hx
    rfl
  | cons buf bufs ih =>
    obtain ⟨y, z, hbuf, hbufs, hw, hrs⟩ := feedAll_append_some hx
    rw [scanBufs]
    simp only [bind_eq_bind, scanWith_whole buf.len_lt r hbuf, bind_some]
    rw [ih hbufs, ← foldl_append, hw, hrs]

theorem write_execs {h : Wr} {bufs : List UvBuf} {x : Wr × List Reaction} (hx : feedAll env h (bytesOf bufs) = some x)
    (c : Con) (as : List Answer) : writeBufs env k h bufs c as = some (x.1, exec k (opsOf x.2) c.start as) := by
  rw [writeBufs]
  simp only [bind_eq_bind, scanBufs_execs hx, bind_some, foldl_ops]
  rw [opsOf, exec_append]
  apply congrArg
  apply Prod.ext
  · rfl
  · change ((exec k (x.2.flatMap ops) c.start as).bind fun _ => Op.flush.exec k) = _
    congr 1
    funext u c' as'
    rw [exec, bind_apply]
    cases Op.flush.exec k c' as' with
    | wait c | done u c rest => rfl

end

/-! ## Answers and the log -/

/-- What a function has done does not depend on answers that it has not had, and what has been logged stays. -/
structure Regular {α : Type} (m : M α) : Prop where
  mono : ∀ {c as a c' rest}, m c as = .done a c' rest → ∀ t, m c (as ++ t) = .done a c' (rest ++ t)
  grows : ∀ c as, c.log <+: (m c as).con.log

section
variable {α β : Type} {m : M α}

theorem Regular.pure (a : α) : Regular (pure a : M α) where
  mono h t := by
    cases h
    rfl
  grows c as := prefix_rfl

theorem Regular.getCon : Regular getCon where
  mono h t := by
    cases h
    rfl
  grows c as := prefix_rfl

theorem Regular.update {f : Con → Con} (h : ∀ c, c.log <+: (f c).log) : Regular (update f) where
  mono h t := by
    cases h
    rfl
  grows c as := h c

theorem Regular.call (a : Api) (retried : Bool) : Regular (call a retried) where
  mono {c as _ _ _} h t := by
    cases as with
    | nil => cases h
    | cons r as =>
      cases h
      rfl
  grows c as := by
    cases as with
    | nil => exact prefix_rfl
    | cons r as => exact List.prefix_append _ _

theorem Regular.log_bind {f : α → M β} (hf : ∀ a, Regular (f a)) (m : M α) (c : Con) (as : List Answer) :
    (m c as).con.log <+: ((m >>= f) c as).con.log := by
  rw [bind_apply]
  cases m c as with
  | wait c' => exact prefix_rfl
  | done a c' rest => exact (hf a).grows c' rest

theorem Regular.bind {f : α → M β} (hm : Regular m) (hf : ∀ a, Regular (f a)) : Regular (m >>= f) where
  mono {c as b c' rest} h t := by
    rw [bind_apply] at h ⊢
    cases hr : m c as with
    | wait c₁ =>
      rw [hr] at h
      cases h
    | done a c₁ as₁ =>
      rw [hr] at h
      rw [hm.mono hr t]
      exact (hf a).mono h t
  grows c as := (hm.grows c as).trans (Regular.log_bind hf m c as)

theorem Regular.ite {p : Prop} [Decidable p] {m' : M α} (h : Regular m) (h' : Regular m') : Regular (if p then m else m') := by
  split_ifs
  · exact h
  · exact h'

theorem Regular.fail (e : UInt32) : Regular (fail e) :=
  (Regular.update (f := fun c => { c with error := e }) fun _ => prefix_rfl).bind fun _ => .pure false

theorem Regular.attempt (a : Api) {f : Answer → M Bool} (hf : ∀ r, Regular (f r)) : Regular (attempt a f) :=
  (Regular.call a false).bind fun r => .ite (.fail r.error) (hf r)

theorem Regular.attemptAgain (a : Api) (info : Info) {f : Answer → M (Info ⊕ Bool)} (hf : ∀ r, Regular (f r)) :
    Regular (attemptAgain a info f) :=
  (Regular.call a true).bind fun r => .ite (hf r) (.ite (.pure _) ((Regular.fail r.error).bind fun _ => .pure _))

theorem Regular.unlessError {m : M Bool} (hm : Regular m) : Regular (unlessError m) :=
  Regular.getCon.bind fun _ => .ite (.pure false) hm

theorem Regular.rounds {round : Info → M (Info ⊕ Bool)} (hround : ∀ info, Regular (round info)) (n : ℕ) (info : Info) :
    Regular (rounds round n info) := by
  induction n generalizing info with
  | zero => exact ⟨fun h => (by cases h), fun c as => prefix_rfl⟩
  | succ n ih =>
    apply (hround info).bind
    intro x
    cases x with
    | inl info' => exact ih info'
    | inr b => exact .pure b

theorem rounds_mono {round : Info → M (Info ⊕ Bool)} {n : ℕ} {info : Info} {c c' : Con} {as rest : List Answer} {b : Bool}
    (h : rounds round n info c as = .done b c' rest) (i : ℕ) : rounds round (n + i) info c as = .done b c' rest := by
  induction n generalizing info c as with
  | zero => cases h
  | succ n ih =>
    rw [Nat.succ_add, rounds, bind_apply]
    rw [rounds, bind_apply] at h
    cases hr : round info c as with
    | wait c₁ =>
      rw [hr] at h
      cases h
    | done x c₁ as₁ =>
      rw [hr] at h
      cases x with
      | inl info' => exact ih h
      | inr b' => exact h

theorem Regular.retry {round : Info → M (Info ⊕ Bool)} (hround : ∀ info, Regular (round info)) (info : Info) :
    Regular (retry round info) where
  mono {c as b c' rest} h t := by
    rw [TtyErrors.retry, length_append]
    exact rounds_mono ((Regular.rounds hround as.length info).mono h t) t.length
  grows c as := (Regular.rounds hround as.length info).grows c as

theorem Regular.makeRealCoord (info : Info) (x : ℤ) (xr : Bool) (y : ℤ) (yr : Bool) : Regular (makeRealCoord info x xr y yr) :=
  (Regular.update (f := fun c => { c with window := updateVirtualWindow c.window info }) fun _ => prefix_rfl).bind fun _ =>
    Regular.getCon.bind fun _ => .pure _

theorem Regular.caretRound (x : ℤ) (xr : Bool) (y : ℤ) (yr : Bool) (info : Info) : Regular (caretRound x xr y yr info) := by
  have hquery : Regular (caretQuery info) := by
    apply (Regular.call _ _).bind
    intro r
    apply Regular.ite (.pure _)
    exact (Regular.update fun _ => List.prefix_append _ _).bind fun _ => .pure _
  exact hquery.bind fun info => (Regular.makeRealCoord info x xr y yr).bind fun pos => .attemptAgain _ _ fun _ => .pure _

theorem Regular.moveCaret (k : Console) (x : ℤ) (xr : Bool) (y : ℤ) (yr : Bool) : Regular (moveCaret k x xr y yr) :=
  .unlessError (.retry (Regular.caretRound x xr y yr) _)

end

/-! ## Up to the first failure -/

def Calm (l : List Event) : Prop := ∀ ev ∈ l, ∃ a, ev = .call a .ok ∨ ev = .call a .resized

structure Going (c : Con) : Prop where
  error : c.error = 0
  calm : Calm c.log

/-- The last call has failed, and it is the first. -/
structure Stopped (c : Con) : Prop where
  error : c.error ≠ 0
  last : ∃ l a, c.log = l ++ [.call a (.failed c.error)] ∧ Calm l

def Ret (b : Bool) (c : Con) : Prop := if b then Going c else Stopped c

def RoundRet (x : Info ⊕ Bool) (c : Con) : Prop :=
  match x with
  | .inl _ => Going c
  | .inr b => Ret b c

/-- `Q` where the function ends; while it waits no call has failed. -/
def Res.Sat {α : Type} (Q : α → Con → Prop) : Res α → Prop
  | .done a c _ => Q a c
  | .wait c => Going c

structure Keeps {α : Type} (m : M α) (Q : α → Con → Prop) : Prop where
  regular : Regular m
  sat : ∀ c as, Going c → (m c as).Sat Q

theorem Calm.nil : Calm [] := fun ev h => by cases h

theorem Calm.append {l : List Event} (h : Calm l) {a : Api} {o : Outcome} (ho : o = .ok ∨ o = .resized) :
    Calm (l ++ [.call a o]) := by
  intro ev hev
  obtain hev | hev := mem_append.mp hev
  · exact h ev hev
  · obtain rfl := mem_singleton.mp hev
    exact ⟨a, ho.imp (congrArg _) (congrArg _)⟩

section
variable {α β : Type} {Q : α → Con → Prop} {R : β → Con → Prop}

theorem Keeps.pure {a : α} (h : ∀ c, Going c → Q a c) : Keeps (pure a : M α) Q := ⟨.pure a, fun c _ hc => h c hc⟩

theorem Keeps.bind {m : M β} {f : β → M α} (hm : Keeps m R) (hfr : ∀ b, Regular (f b))
    (hf : ∀ b c as, R b c → (f b c as).Sat Q) : Keeps (m >>= f) Q := by
  refine ⟨hm.regular.bind hfr, ?_⟩
  intro c as hc
  have hr := hm.sat c as hc
  rw [bind_apply]
  cases hres : m c as with
  | wait c' =>
    rw [hres] at hr
    exact hr
  | done b c' rest =>
    rw [hres] at hr
    exact hf b c' rest hr

theorem Keeps.then {m : M β} {f : β → M α} (hm : Keeps m fun _ => Going) (hf : ∀ b, Keeps (f b) Q) : Keeps (m >>= f) Q :=
  hm.bind (fun b => (hf b).regular) fun b c as hc => (hf b).sat c as hc

theorem Keeps.update {f : Con → Con} (he : ∀ c, (f c).error = c.error) (hl : ∀ c, (f c).log = c.log) :
    Keeps (update f) fun _ => Going :=
  ⟨.update fun c => (hl c).symm ▸ prefix_rfl, fun c _ hc => ⟨(he c).trans hc.error, (hl c).symm ▸ hc.calm⟩⟩

theorem Keeps.getCon : Keeps getCon fun _ => Going := ⟨.getCon, fun _ _ hc => hc⟩

theorem Keeps.ite {p : Prop} [Decidable p] {m m' : M α} (h : Keeps m Q) (h' : Keeps m' Q) : Keeps (if p then m else m') Q := by
  split_ifs
  · exact h
  · exact h'

end

theorem outcome_ok {retried : Bool} {e : UInt32} (h : e = 0) : outcome retried e = .ok := if_pos h

theorem outcome_resized {e : UInt32} (h : e = ERROR_INVALID_PARAMETER) : outcome true e = .resized := by
  rw [h]
  decide

theorem outcome_failed {retried : Bool} {e : UInt32} (h : e ≠ 0) (h' : retried = true → e ≠ ERROR_INVALID_PARAMETER) :
    outcome retried e = .failed e := by
  rw [outcome, if_neg h, if_neg fun hf => h' hf.1 hf.2]

theorem Stopped.of_failed {c : Con} (hc : Going c) (a : Api) {e : UInt32} (he : e ≠ 0) :
    Stopped { c with log := c.log ++ [.call a (.failed e)], error := e } :=
  ⟨he, c.log, a, rfl, hc.calm⟩

theorem Keeps.call {α : Type} {Q : α → Con → Prop} {a : Api} {g f : Answer → M α} (hr : ∀ r, Regular (g r))
    (hg : ∀ r c as, r.error ≠ 0 → Going c → (g r { c with log := c.log ++ [.call a (.failed r.error)] } as).Sat Q)
    (hf : ∀ r, Keeps (f r) Q) : Keeps (call a false >>= fun r => if r.error ≠ 0 then g r else f r) Q := by
  refine ⟨(Regular.call a false).bind fun r => .ite (hr r) (hf r).regular, ?_⟩
  intro c as hc
  cases as with
  | nil => exact hc
  | cons r as =>
    rw [bind_apply, TtyErrors.call]
    dsimp only [Res.bind]
    by_cases he : r.error = 0
    · rw [outcome_ok he, if_neg (not_not_intro he)]
      exact (hf r).sat _ as ⟨hc.error, hc.calm.append (.inl rfl)⟩
    · rw [outcome_failed he (fun hf => by cases hf), if_pos he]
      exact hg r c as he hc

theorem Keeps.attempt {a : Api} {f : Answer → M Bool} (hf : ∀ r, Keeps (f r) Ret) : Keeps (attempt a f) Ret :=
  .call (fun r => .fail r.error) (fun _ _ _ he hc => Stopped.of_failed hc a he) hf

theorem Keeps.attemptAgain {a : Api} {info : Info} {f : Answer → M (Info ⊕ Bool)} (hf : ∀ r, Keeps (f r) RoundRet) :
    Keeps (attemptAgain a info f) RoundRet := by
  refine ⟨.attemptAgain a info fun r => (hf r).regular, ?_⟩
  intro c as hc
  cases as with
  | nil => exact hc
  | cons r as =>
    rw [TtyErrors.attemptAgain, bind_apply, TtyErrors.call]
    dsimp only [Res.bind]
    by_cases he : r.error = 0
    · rw [outcome_ok he, if_pos he]
      exact (hf r).sat _ as ⟨hc.error, hc.calm.append (.inl rfl)⟩
    · rw [if_neg he]
      by_cases hi : r.error = ERROR_INVALID_PARAMETER
      · rw [outcome_resized hi, if_pos hi]
        exact ⟨hc.error, hc.calm.append (.inr rfl)⟩
      · rw [outcome_failed he fun _ => hi, if_neg hi]
        exact Stopped.of_failed hc a he

theorem Keeps.rounds {round : Info → M (Info ⊕ Bool)} (hround : ∀ info, Keeps (round info) RoundRet) (n : ℕ) (info : Info) :
    Keeps (rounds round n info) Ret := by
  refine ⟨.rounds (fun info => (hround info).regular) n info, ?_⟩
  induction n generalizing info with
  | zero => exact fun c as hc => hc
  | succ n ih =>
    intro c as hc
    have hr := (hround info).sat c as hc
    rw [TtyErrors.rounds, bind_apply]
    cases hres : round info c as with
    | wait c' =>
      rw [hres] at hr
      exact hr
    | done x c' rest =>
      rw [hres] at hr
      cases x with
      | inl info' => exact ih info' c' rest hr
      | inr b => exact hr

theorem Keeps.retry {round : Info → M (Info ⊕ Bool)} (hround : ∀ info, Keeps (round info) RoundRet) (info : Info) :
    Keeps (retry round info) Ret :=
  ⟨.retry (fun info => (hround info).regular) info, fun c as hc => (Keeps.rounds hround as.length info).sat c as hc⟩

theorem Keeps.unlessError {m : M Bool} (hm : Keeps m Ret) : Keeps (unlessError m) Ret := by
  refine ⟨.unlessError hm.regular, ?_⟩
  intro c as hc
  rw [TtyErrors.unlessError, bind_apply, getCon_apply]
  dsimp only [Res.bind]
  rw [if_neg (not_not_intro hc.error)]
  exact hm.sat c as hc

theorem Keeps.ret : Keeps (Pure.pure true : M Bool) Ret := Keeps.pure fun _ hc => hc

/-! ### The functions, but for the caret -/

theorem Keeps.makeRealCoord (info : Info) (x : ℤ) (xr : Bool) (y : ℤ) (yr : Bool) :
    Keeps (makeRealCoord info x xr y yr) fun _ => Going :=
  ⟨.makeRealCoord info x xr y yr, fun _ _ hc => ⟨hc.error, hc.calm⟩⟩

theorem Keeps.emitText : Keeps emitText Ret := .unlessError (Keeps.getCon.then fun _ => .attempt fun _ => .ret)

theorem Keeps.fillRound {area : Info → M (ℤ × Coord)} {attributes : Info → UInt16} {last : Info → M Unit}
    (ha : ∀ i, Keeps (area i) fun _ => Going) (hl : ∀ i, Keeps (last i) fun _ => Going) (info : Info) :
    Keeps (fillRound area attributes last info) RoundRet := by
  apply Keeps.call
  · exact fun r => (Regular.fail r.error).bind fun _ => .pure _
  · exact fun r c as he hc => Stopped.of_failed hc _ he
  · intro r
    apply (ha r.info).then
    intro x
    apply Keeps.attemptAgain
    intro r'
    apply Keeps.attemptAgain
    intro _
    exact (hl r.info).then fun _ => Keeps.pure fun _ hc => hc

theorem Keeps.reset (k : Console) : Keeps (reset k) Ret := by
  apply Keeps.unlessError
  apply Keeps.attempt
  intro _
  apply Keeps.attempt
  intro _
  apply (Keeps.retry (Keeps.fillRound (fun _ => Keeps.pure fun _ hc => hc) fun info => Keeps.update ?_ ?_) _).bind
  · exact fun b => .ite (.attempt _ fun _ => .pure true) (.pure false)
  · intro b c as hb
    cases b with
    | true => exact (Keeps.attempt fun _ => .ret).sat c as hb
    | false => exact hb
  · exact fun _ => rfl
  · exact fun _ => rfl

theorem Keeps.clear (k : Console) (dir : ℤ) (entireScreen : Bool) : Keeps (clear k dir entireScreen) Ret := by
  apply Keeps.unlessError
  apply Keeps.retry
  apply Keeps.fillRound
  · intro info
    exact (Keeps.makeRealCoord _ _ _ _ _).then fun _ => (Keeps.makeRealCoord _ _ _ _ _).then fun _ => Keeps.pure fun _ hc => hc
  · exact fun _ => Keeps.pure fun _ hc => hc

theorem Keeps.setStyle (k : Console) (args : List UInt16) : Keeps (setStyle k args) Ret :=
  .ite .ret (.attempt fun _ => .attempt fun _ => .ret)

theorem Keeps.saveState (saveAttributes : Bool) : Keeps (saveState saveAttributes) Ret := by
  apply Keeps.unlessError
  apply Keeps.attempt
  intro r
  apply (Keeps.update ?_ ?_).then
  · exact fun _ => .ret
  · exact fun _ => rfl
  · exact fun _ => rfl

theorem Keeps.restoreStyle (restoreAttributes : Bool) : Keeps (restoreStyle restoreAttributes) Ret := by
  apply Keeps.getCon.then
  intro c
  cases restoreAttributes with
  | false => exact .ret
  | true =>
    cases c.savedAttributes with
    | none => exact .ret
    | some saved => exact .attempt fun _ => .attempt fun _ => .ret

/-! ### The caret -/

/-- Of the answers to the rounds of a caret move, one to a query is a failure. -/
def Blind : List Answer → Prop
  | [] => False
  | [q] => q.error ≠ 0
  | q :: r :: as => q.error ≠ 0 ∨ r.error = ERROR_INVALID_PARAMETER ∧ Blind as

section
variable {x y : ℤ} {xr yr : Bool} {info : Info} {c : Con} {as : List Answer}

theorem caretRound_query (x : ℤ) (xr : Bool) (y : ℤ) (yr : Bool) (info : Info) (c : Con) (q : Answer) (as : List Answer) :
    ∃ pos c', (q.error = 0 → Going c → Going c') ∧ (q.error ≠ 0 → Event.unfilled ∈ c'.log) ∧
      caretRound x xr y yr info c (q :: as) =
        attemptAgain (.setCursorPosition pos) (if q.error = 0 then q.info else info) (fun _ => return .inr true) c' as := by
  by_cases hq : q.error = 0
  · refine ⟨realCoord (updateVirtualWindow c.window q.info) q.info x xr y yr, { c with
      log := c.log ++ [.call .getScreenBufferInfo .ok], window := updateVirtualWindow c.window q.info }, ?_, ?_, ?_⟩
    · exact fun _ hc => ⟨hc.error, hc.calm.append (.inl rfl)⟩
    · exact fun hf => absurd hq hf
    · rw [caretRound, caretQuery, bind_apply, bind_apply, call]
      dsimp only [Res.bind]
      rw [if_pos hq, if_pos hq, outcome_ok hq]
      rfl
  · refine ⟨realCoord (updateVirtualWindow c.window info) info x xr y yr, { c with
      log := c.log ++ [.call .getScreenBufferInfo (.failed q.error)] ++ [.unfilled], error := q.error,
      window := updateVirtualWindow c.window info }, ?_, ?_, ?_⟩
    · exact fun hf => absurd hf hq
    · exact fun _ => mem_append_right _ mem_cons_self
    · rw [caretRound, caretQuery, bind_apply, bind_apply, call]
      dsimp only [Res.bind]
      rw [if_neg hq, if_neg hq, outcome_failed hq (fun hf => by cases hf)]
      rfl

theorem rounds_caret (n : ℕ) (hb : ¬ Blind as) (hc : Going c) : (rounds (caretRound x xr y yr) n info c as).Sat Ret := by
  induction n generalizing as c info with
  | zero => exact hc
  | succ n ih =>
    rw [rounds, bind_apply]
    cases as with
    | nil => exact hc
    | cons q as =>
      have hq : q.error = 0 := by
        by_contra hne
        cases as with
        | nil => exact hb hne
        | cons r as => exact hb (.inl hne)
      obtain ⟨pos, c', hgoing, -, hround⟩ := caretRound_query x xr y yr info c q as
      have hc' := hgoing hq hc
      rw [hround]
      cases as with
      | nil => exact hc'
      | cons r as =>
        rw [attemptAgain, bind_apply, call]
        dsimp only [Res.bind]
        by_cases he : r.error = 0
        · rw [outcome_ok he, if_pos he]
          exact ⟨hc'.error, hc'.calm.append (.inl rfl)⟩
        · rw [if_neg he]
          by_cases hi : r.error = ERROR_INVALID_PARAMETER
          · rw [outcome_resized hi, if_pos hi]
            exact ih (fun hf => hb (.inr ⟨hi, hf⟩)) ⟨hc'.error, hc'.calm.append (.inr rfl)⟩
          · rw [outcome_failed he fun _ => hi, if_neg hi]
            exact Stopped.of_failed hc' _ he

theorem rounds_blind {n : ℕ} (hn : as.length ≤ n) (hb : Blind as) :
    Event.unfilled ∈ (rounds (caretRound x xr y yr) n info c as).con.log := by
  induction n generalizing as c info with
  | zero =>
    cases eq_nil_of_length_eq_zero (Nat.le_zero.mp hn)
    exact hb.elim
  | succ n ih =>
    rw [rounds, bind_apply]
    cases as with
    | nil => exact hb.elim
    | cons q as =>
      obtain ⟨pos, c', -, hunfilled, hround⟩ := caretRound_query x xr y yr info c q as
      by_cases hq : q.error = 0
      · cases as with
        | nil => exact absurd hq hb
        | cons r as =>
          obtain hf | ⟨hi, hb'⟩ := hb
          · exact absurd hq hf
          · have he : r.error ≠ 0 := by
              rw [hi]
              decide
            rw [hround, attemptAgain, bind_apply, call]
            dsimp only [Res.bind]
            rw [if_neg he, if_pos hi]
            rw [length_cons, length_cons] at hn
            exact ih (by omega) hb'
      · have hrest (z : Info ⊕ Bool) : Regular (match z with
            | .inl info => rounds (caretRound x xr y yr) n info
            | .inr b => return b) := by
          cases z with
          | inl info' => exact .rounds (Regular.caretRound x xr y yr) n info'
          | inr b => exact .pure b
        have hlog := (Regular.attemptAgain (.setCursorPosition pos) (if q.error = 0 then q.info else info)
          fun _ => .pure (.inr true)).grows c' as
        rw [hround]
        exact (hlog.trans (Regular.log_bind hrest _ c' as)).subset (hunfilled hq)

theorem moveCaret_sat (k : Console) (hb : ¬ Blind as) (hc : Going c) : (moveCaret k x xr y yr c as).Sat Ret := by
  rw [moveCaret, unlessError, bind_apply, getCon_apply]
  dsimp only [Res.bind]
  rw [if_neg (not_not_intro hc.error)]
  exact rounds_caret as.length hb hc

theorem moveCaret_blind (k : Console) (hb : Blind as) (hc : Going c) :
    Event.unfilled ∈ (moveCaret k x xr y yr c as).con.log := by
  rw [moveCaret, unlessError, bind_apply, getCon_apply]
  dsimp only [Res.bind]
  rw [if_neg (not_not_intro hc.error)]
  exact rounds_blind (Nat.le_refl _) hb

end

/-! ### Operations -/

def Op.Moves (c : Con) : Op → Prop
  | .act (.moveCaret _ _ _ _) => True
  | .act (.restoreState _) => c.savedPosition ≠ none
  | _ => False

def Held (c : Con) : Prop := Going c ∨ Stopped c

theorem Ret.held {b : Bool} {c : Con} (h : Ret b c) : Held c := by
  cases b with
  | true => exact .inl h
  | false => exact .inr h

theorem Held.congr {c c' : Con} (h : Held c) (he : c'.error = c.error) (hl : c'.log = c.log) : Held c' := by
  obtain ⟨herr, hcalm⟩ | ⟨herr, hlast⟩ := h
  · exact .inl ⟨he.trans herr, hl ▸ hcalm⟩
  · exact .inr ⟨he ▸ herr, by rw [he, hl]; exact hlast⟩

theorem Keeps.flushText : Keeps flushText fun _ => Held := by
  apply Keeps.getCon.then
  intro c
  apply Keeps.ite
  · apply Keeps.emitText.bind
    · exact fun _ => .update fun _ => prefix_rfl
    · intro b c' as hb
      exact hb.held.congr rfl rfl
  · exact Keeps.pure fun _ hc => .inl hc

theorem Regular.restoreState (k : Console) (restoreAttributes : Bool) : Regular (restoreState k restoreAttributes) := by
  apply Regular.unlessError
  apply Regular.getCon.bind
  intro c
  cases c.savedPosition with
  | none => exact (Keeps.restoreStyle restoreAttributes).regular
  | some pos =>
    exact (Regular.moveCaret k _ _ _ _).bind fun _ => .ite (Keeps.restoreStyle restoreAttributes).regular (.pure false)

theorem Regular.act (k : Console) (a : Action) : Regular (act k a) := by
  cases a with
  | reset => exact (Keeps.reset k).regular
  | saveState attributes => exact (Keeps.saveState attributes).regular
  | restoreState attributes => exact .restoreState k attributes
  | setCursorShape shape | setCursorVisibility visible => exact .attempt _ fun _ => .attempt _ fun _ => .pure true
  | moveCaret x xr y yr => exact .moveCaret k x xr y yr
  | clear dir entireScreen => exact (Keeps.clear k dir entireScreen).regular
  | setStyle args => exact (Keeps.setStyle k args).regular

theorem Regular.op (k : Console) (o : Op) : Regular (o.exec k) := by
  cases o with
  | flush => exact Keeps.flushText.regular
  | put us =>
    have hensure : Regular (ensureBufferSpace us.length) := Regular.getCon.bind fun _ => .ite Keeps.flushText.regular (.pure ())
    exact hensure.bind fun _ => .update fun _ => prefix_rfl
  | act a => exact (Regular.act k a).bind fun _ => .pure ()

theorem Regular.exec (k : Console) (os : List Op) : Regular (exec k os) := by
  induction os with
  | nil => exact .pure ()
  | cons o os ih => exact (Regular.op k o).bind fun _ => ih

section
variable {k : Console} {c : Con} {as : List Answer}

theorem restoreState_sat {attributes : Bool} (hb : c.savedPosition ≠ none → ¬ Blind as) (hc : Going c) :
    (restoreState k attributes c as).Sat Ret := by
  rw [restoreState, unlessError, bind_apply, getCon_apply]
  dsimp only [Res.bind]
  rw [if_neg (not_not_intro hc.error), bind_apply, getCon_apply]
  dsimp only [Res.bind]
  cases hpos : c.savedPosition with
  | none => exact (Keeps.restoreStyle attributes).sat c as hc
  | some pos =>
    have hmove : (moveCaret k pos.x false pos.y false c as).Sat Ret := moveCaret_sat k (hb (by rw [hpos]; simp)) hc
    dsimp only
    rw [bind_apply]
    cases hr : moveCaret k pos.x false pos.y false c as with
    | wait c' =>
      rw [hr] at hmove
      exact hmove
    | done b c' rest =>
      rw [hr] at hmove
      cases b with
      | true => exact (Keeps.restoreStyle attributes).sat c' rest hmove
      | false => exact hmove

theorem op_held (o : Op) (hb : ¬ (o.Moves c ∧ Blind as)) (hc : Going c) : (o.exec k c as).Sat fun _ => Held := by
  have hact {a : Action} (h : (act k a c as).Sat Ret) : ((Op.act a).exec k c as).Sat fun _ => Held := by
    change ((act k a c as).bind fun _ => (pure () : M Unit)).Sat _
    cases hr : act k a c as with
    | wait c' =>
      rw [hr] at h
      exact h
    | done b c' rest =>
      rw [hr] at h
      exact Ret.held h
  cases o with
  | flush => exact Keeps.flushText.sat c as hc
  | put us =>
    have hensure : Keeps (ensureBufferSpace us.length) fun _ => Held :=
      Keeps.getCon.then fun _ => .ite .flushText (Keeps.pure fun _ hc => .inl hc)
    have hput : Keeps ((Op.put us).exec k) fun _ => Held := by
      apply hensure.bind
      · exact fun _ => .update fun _ => prefix_rfl
      · intro _ c' as' hc'
        exact hc'.congr rfl rfl
    exact hput.sat c as hc
  | act a =>
    cases a with
    | reset => exact hact ((Keeps.reset k).sat c as hc)
    | saveState attributes => exact hact ((Keeps.saveState attributes).sat c as hc)
    | restoreState attributes => exact hact (restoreState_sat (fun hpos hblind => hb ⟨hpos, hblind⟩) hc)
    | setCursorShape shape | setCursorVisibility visible =>
      exact hact ((Keeps.attempt fun _ => .attempt fun _ => .ret).sat c as hc)
    | moveCaret x xr y yr => exact hact (moveCaret_sat k (fun hblind => hb ⟨trivial, hblind⟩) hc)
    | clear dir entireScreen => exact hact ((Keeps.clear k dir entireScreen).sat c as hc)
    | setStyle args => exact hact ((Keeps.setStyle k args).sat c as hc)

theorem op_blind {o : Op} (hm : o.Moves c) (hb : Blind as) (hc : Going c) : Event.unfilled ∈ (o.exec k c as).con.log := by
  have hact {a : Action} (h : Event.unfilled ∈ (act k a c as).con.log) : Event.unfilled ∈ ((Op.act a).exec k c as).con.log :=
    (Regular.log_bind (fun _ => .pure ()) (act k a) c as).subset h
  cases o with
  | flush | put us => exact hm.elim
  | act a =>
    apply hact
    cases a with
    | moveCaret x xr y yr => exact moveCaret_blind k hb hc
    | restoreState attributes =>
      obtain ⟨pos, hpos⟩ := ne_none_iff_exists'.mp hm
      rw [act, restoreState, unlessError, bind_apply, getCon_apply]
      dsimp only [Res.bind]
      rw [if_neg (not_not_intro hc.error), bind_apply, getCon_apply]
      dsimp only [Res.bind]
      rw [hpos]
      have hmove : Event.unfilled ∈ (moveCaret k pos.x false pos.y false c as).con.log := moveCaret_blind k hb hc
      exact (Regular.log_bind (fun _ => .ite (Keeps.restoreStyle attributes).regular (.pure false)) _ c as).subset hmove
    | _ => exact hm.elim

end

/-! ## After the first failure -/

/-- What is done whether there has been an error or not. -/
def Op.Reckless (k : Console) : Op → Prop
  | .act (.setStyle args) => style k.defaults args ≠ .unchanged
  | .act (.setCursorVisibility _) => True
  | .act (.setCursorShape _) => True
  | _ => False

section
variable {k : Console} {c : Con} {as : List Answer}

theorem unlessError_idle (m : M Bool) (hc : c.error ≠ 0) : unlessError m c as = .done false c as := by
  rw [unlessError, bind_apply, getCon_apply]
  dsimp only [Res.bind]
  rw [if_pos hc]
  rfl

theorem flushText_idle (hc : c.error ≠ 0) : ∃ us, flushText c as = .done () { c with units := us } as := by
  rw [flushText, bind_apply, getCon_apply]
  dsimp only [Res.bind]
  split_ifs
  · refine ⟨[], ?_⟩
    rw [bind_apply, emitText, unlessError_idle _ hc]
    rfl
  · exact ⟨c.units, rfl⟩

theorem op_idle {o : Op} (ho : ¬ o.Reckless k) (hc : c.error ≠ 0) : ∃ us, o.exec k c as = .done () { c with units := us } as := by
  have hact {a : Action} (h : ∃ b, act k a c as = .done b c as) :
      ∃ us, (Op.act a).exec k c as = .done () { c with units := us } as := by
    obtain ⟨b, hb⟩ := h
    refine ⟨c.units, ?_⟩
    change ((act k a c as).bind fun _ => (pure () : M Unit)) = _
    rw [hb]
    rfl
  cases o with
  | flush => exact flushText_idle hc
  | put us =>
    have hensure : ∃ us', ensureBufferSpace us.length c as = .done () { c with units := us' } as := by
      rw [ensureBufferSpace, bind_apply, getCon_apply]
      dsimp only [Res.bind]
      split_ifs
      · exact flushText_idle hc
      · exact ⟨c.units, rfl⟩
    obtain ⟨us', hus'⟩ := hensure
    refine ⟨us' ++ us, ?_⟩
    rw [Op.exec, bind_apply, hus']
    rfl
  | act a =>
    cases a with
    | reset | saveState attributes | restoreState attributes => exact hact ⟨false, unlessError_idle _ hc⟩
    | setCursorShape shape | setCursorVisibility visible => exact absurd trivial ho
    | moveCaret x xr y yr | clear dir entireScreen => exact hact ⟨false, unlessError_idle _ hc⟩
    | setStyle args =>
      have hstyle : act k (.setStyle args) c as = .done true c as := by
        rw [act, setStyle, if_pos (not_not.mp ho)]
        rfl
      exact hact ⟨true, hstyle⟩

theorem exec_idle {os : List Op} (hos : ∀ o ∈ os, ¬ o.Reckless k) (hc : c.error ≠ 0) :
    ∃ us, exec k os c as = .done () { c with units := us } as := by
  induction os generalizing c with
  | nil => exact ⟨c.units, rfl⟩
  | cons o os ih =>
    obtain ⟨us, hus⟩ := @op_idle k c as o (hos o mem_cons_self) hc
    rw [exec_cons_done hus]
    exact ih (c := { c with units := us }) (fun o' ho' => hos o' (mem_cons_of_mem _ ho')) hc

theorem reckless_eq {o : Op} (ho : o.Reckless k) : ∃ (q : Api) (out : Answer → Api), (∀ r, (out r).output = true) ∧
    o.exec k = attempt q (fun r => attempt (out r) fun _ => pure true) >>= fun _ => pure () := by
  cases o with
  | flush | put us => exact ho.elim
  | act a =>
    cases a with
    | setStyle args =>
      refine ⟨.getScreenBufferInfo, fun r => .setTextAttribute ((style k.defaults args).attributes r.info.wAttributes),
        fun _ => rfl, ?_⟩
      rw [Op.exec, act, setStyle, if_neg ho]
    | setCursorVisibility visible =>
      exact ⟨.getCursorInfo, fun r => .setCursorInfo ⟨r.cursor.dwSize, visible⟩, fun _ => rfl, rfl⟩
    | setCursorShape shape =>
      exact ⟨.getCursorInfo, fun r => .setCursorInfo ⟨if shape = 0 then k.defaults.cursorInfo.dwSize
        else if shape ≤ 2 then CURSOR_SIZE_LARGE else CURSOR_SIZE_SMALL, r.cursor.bVisible⟩, fun _ => rfl, rfl⟩
    | _ => exact ho.elim

theorem reckless_calls {o : Op} (ho : o.Reckless k) (os : List Op) (c : Con) (r : Answer) (as : List Answer) :
    ∃ q oc, c.log ++ [.call q oc] <+: (exec k (o :: os) c (r :: as)).con.log := by
  obtain ⟨q, out, -, hexec⟩ := reckless_eq ho
  refine ⟨q, outcome false r.error, ?_⟩
  have hfun (r : Answer) : Regular (if r.error ≠ 0 then fail r.error else attempt (out r) fun _ => pure true) :=
    .ite (.fail _) (.attempt _ fun _ => .pure true)
  have hattempt := Regular.log_bind hfun (call q false) c (r :: as)
  have hop := Regular.log_bind (fun _ => .pure ()) (attempt q fun r => attempt (out r) fun _ => pure true) c (r :: as)
  rw [← hexec] at hop
  exact hattempt.trans (hop.trans (Regular.log_bind (fun _ => .exec k os) (o.exec k) c (r :: as)))

theorem reckless_puts {o : Op} (ho : o.Reckless k) (os : List Op) (c : Con) {r s : Answer} (hr : r.error = 0)
    (hs : s.error = 0) :
    ∃ q out, out.output = true ∧ c.log ++ [.call q .ok, .call out .ok] <+: (exec k (o :: os) c [r, s]).con.log := by
  obtain ⟨q, out, hout, hexec⟩ := reckless_eq ho
  refine ⟨q, out r, hout r, ?_⟩
  have hop : o.exec k c [r, s] = .done () { c with log := c.log ++ [.call q .ok] ++ [.call (out r) .ok] } [] := by
    rw [hexec, bind_apply, attempt, bind_apply, call]
    dsimp only [Res.bind]
    rw [if_neg (not_not_intro hr), outcome_ok hr, attempt, bind_apply, call]
    dsimp only [Res.bind]
    rw [if_neg (not_not_intro hs), outcome_ok hs]
    rfl
  rw [exec_cons_done hop]
  have hlog : c.log ++ [.call q .ok, .call (out r) .ok] = c.log ++ [.call q .ok] ++ [.call (out r) .ok] :=
    (append_assoc c.log [.call q .ok] [.call (out r) .ok]).symm
  rw [hlog]
  exact (Regular.exec k os).grows { c with log := c.log ++ [.call q .ok] ++ [.call (out r) .ok] } []

end

/-! ## The whole call -/

def firstError : List Event → UInt32
  | [] => 0
  | .call _ (.failed e) :: _ => e
  | _ :: l => firstError l

/-- Nothing is put out after a call that has failed. -/
def Quiet (l : List Event) : Prop :=
  ∀ pre a e post, l = pre ++ .call a (.failed e) :: post → ∀ ev ∈ post, ev.output = false

/-- The last call has failed, and is the first that has. -/
def FirstFails (l : List Event) : Prop :=
  ∃ pre a e post, l = pre ++ .call a (.failed e) :: post ∧ Calm pre ∧ ∀ ev ∈ post, ev = .unfilled

/-- What is to be after a failed call, and what becomes of the parser. -/
def Heeded (env : Env) (k : Console) (h : Wr) (bufs : List UvBuf) (c : Con) (as : List Answer) : Prop :=
  ∃ w r, writeBufs env k h bufs c as = some (w, r) ∧ Quiet r.con.log ∧ Event.unfilled ∉ r.con.log ∧
    (∀ u c' rest, r = .done u c' rest → c'.error = firstError c'.log) ∧ ∀ as', ∃ r', writeBufs env k h bufs c as' = some (w, r')

/-- Where an operation begins without an error, it does not move the caret by what a query has not filled in; and where it ends
with one, no operation that does not look at it comes after it. -/
def Sound (k : Console) (os : List Op) (c : Con) (as : List Answer) : Prop :=
  ∀ before o after u c' rest, os = before ++ o :: after → exec k before c as = .done u c' rest → c'.error = 0 →
    ¬ (o.Moves c' ∧ Blind rest) ∧
      ∀ u' c'' rest', o.exec k c' rest = .done u' c'' rest' → c''.error ≠ 0 → ∀ o' ∈ after, ¬ o'.Reckless k

section
variable {l l' m m' : List Event}

theorem Calm.not_failed (h : Calm l) (a : Api) (e : UInt32) : Event.call a (.failed e) ∉ l := by
  intro hmem
  obtain ⟨a', heq | heq⟩ := h _ hmem
  · cases heq
  · cases heq

theorem Calm.filled (h : Calm l) : Event.unfilled ∉ l := by
  intro hmem
  obtain ⟨a', heq | heq⟩ := h _ hmem
  · cases heq
  · cases heq

theorem Calm.first_failed (h : Calm l) (h' : Calm l') {a a' : Api} {e e' : UInt32}
    (heq : l ++ .call a (.failed e) :: m = l' ++ .call a' (.failed e') :: m') : m = m' := by
  induction l generalizing l' with
  | nil =>
    cases l' with
    | nil => exact (List.cons.inj heq).2
    | cons ev l' =>
      have hev := (List.cons.inj heq).1
      exact absurd (hev ▸ mem_cons_self) (h'.not_failed a e)
  | cons ev l ih =>
    cases l' with
    | nil =>
      have hev := (List.cons.inj heq).1
      exact absurd (hev ▸ mem_cons_self) (h.not_failed a' e')
    | cons ev' l' =>
      exact ih (fun ev hev => h ev (mem_cons_of_mem _ hev)) (fun ev hev => h' ev (mem_cons_of_mem _ hev))
        (List.cons.inj heq).2

theorem Calm.firstError_append (h : Calm l) : firstError (l ++ m) = firstError m := by
  induction l with
  | nil => rfl
  | cons ev l ih =>
    have hrest := ih fun ev hev => h ev (mem_cons_of_mem _ hev)
    obtain ⟨a, rfl | rfl⟩ := h ev mem_cons_self
    · exact hrest
    · exact hrest

theorem FirstFails.not_calm (h : FirstFails l) : ¬ Calm l := by
  obtain ⟨pre, a, e, post, rfl, -, -⟩ := h
  exact fun hcalm => hcalm.not_failed a e (mem_append_right _ mem_cons_self)

end

section
variable {k : Console} {c : Con}

theorem Stopped.quiet (h : Stopped c) : Quiet c.log ∧ Event.unfilled ∉ c.log ∧ c.error = firstError c.log := by
  obtain ⟨herr, l, a, hlog, hcalm⟩ := h
  rw [hlog]
  refine ⟨?_, ?_, ?_⟩
  · intro pre b e post heq ev hev
    obtain rfl | ⟨post', z, rfl⟩ := eq_nil_or_concat post
    · cases hev
    · rw [concat_eq_append, ← cons_append, ← append_assoc] at heq
      have hl := append_inj_left' heq rfl
      exact absurd (hl ▸ mem_append_right _ mem_cons_self) (hcalm.not_failed b e)
  · intro hmem
    obtain hmem | hmem := mem_append.mp hmem
    · exact hcalm.filled hmem
    · cases mem_singleton.mp hmem
  · rw [hcalm.firstError_append]
    rfl

theorem Stopped.units (h : Stopped c) (us : List UInt16) : Stopped { c with units := us } := ⟨h.error, h.last⟩

theorem Sound.stops {os : List Op} {as : List Answer} (hs : Sound k os c as) (hc : Going c)
    (hfail : ¬ Calm (exec k os c as).con.log) (later : List Answer) :
    ∃ c' rest, exec k os c (as ++ later) = .done () c' rest ∧ Stopped c' := by
  induction os generalizing c as with
  | nil => exact absurd hc.calm hfail
  | cons o os ih =>
    obtain ⟨hblind, hreckless⟩ := hs [] o os () c as rfl rfl hc.error
    have hheld := op_held (k := k) o hblind hc
    cases hr : o.exec k c as with
    | wait c' =>
      rw [hr] at hheld
      have hlog : exec k (o :: os) c as = .wait c' := by
        rw [exec, bind_apply, hr]
        rfl
      rw [hlog] at hfail
      exact absurd hheld.calm hfail
    | done u c' rest =>
      rw [hr] at hheld
      have hmono := (Regular.op k o).mono hr later
      rw [exec_cons_done hr] at hfail
      rw [exec_cons_done hmono]
      obtain hgoing | hstopped := hheld
      · apply ih _ hgoing hfail
        intro before o' after u' c'' rest' hos hbefore
        apply hs (o :: before) o' after u' c'' rest' (by rw [hos]; rfl)
        rw [exec_cons_done hr]
        exact hbefore
      · obtain ⟨us, hus⟩ := @exec_idle k c' (rest ++ later) os (hreckless u c' rest hr hstopped.error) hstopped.error
        exact ⟨_, _, hus, hstopped.units us⟩

theorem Stopped.not_reckless {os : List Op} {as : List Answer} (hc : Stopped c) (hfail : FirstFails (exec k os c as).con.log)
    (hquiet : ∀ later, Quiet (exec k os c (as ++ later)).con.log) : ∀ o ∈ os, ¬ o.Reckless k := by
  induction os generalizing c with
  | nil =>
    intro o ho
    cases ho
  | cons o os ih =>
    have ho : ¬ o.Reckless k := by
      intro ho
      obtain ⟨-, l, a, hlog, hcalm⟩ := hc
      cases as with
      | nil =>
        -- Both of its calls succeed.
        let r : Answer := ⟨0, k.garbage, k.defaults.cursorInfo, 0⟩
        obtain ⟨q, out, hout, t, ht⟩ := reckless_puts ho os c (r := r) (s := r) rfl rfl
        have hq := hquiet [r, r]
        rw [nil_append, ← ht, hlog] at hq
        have hfalse := hq l a c.error ([.call q .ok, .call out .ok] ++ t) (by simp) (.call out .ok) (by simp)
        exact absurd (hout.symm.trans hfalse) (by decide)
      | cons r as =>
        -- Its query comes after the call that has failed.
        obtain ⟨q, oc, t, ht⟩ := reckless_calls ho os c r as
        obtain ⟨pre, b, e, post, heq, hpre, hpost⟩ := hfail
        rw [← ht, hlog, append_assoc, append_assoc] at heq
        have hm := hcalm.first_failed hpre heq
        have hf := hpost (.call q oc) (hm ▸ mem_cons_self)
        cases hf
    obtain ⟨us, hus⟩ := @op_idle k c as o ho hc.error
    have hlater (later : List Answer) : exec k (o :: os) c (as ++ later) = exec k os { c with units := us } (as ++ later) :=
      exec_cons_done ((Regular.op k o).mono hus later)
    rw [exec_cons_done hus] at hfail
    intro o' ho'
    obtain rfl | ho' := mem_cons.mp ho'
    · exact ho
    · refine ih (hc.units us) hfail ?_ o' ho'
      intro later
      rw [← hlater]
      exact hquiet later

theorem Sound.of_quiet {os : List Op} {as : List Answer} (hc : Going c) (hfail : FirstFails (exec k os c as).con.log)
    (hfilled : Event.unfilled ∉ (exec k os c as).con.log) (hquiet : ∀ later, Quiet (exec k os c (as ++ later)).con.log) :
    Sound k os c as := by
  induction os generalizing c as with
  | nil =>
    intro before o after u c' rest hos
    cases before with
    | nil | cons o' before => cases hos
  | cons o os ih =>
    have hblind : ¬ (o.Moves c ∧ Blind as) := by
      rintro ⟨hm, hb⟩
      have hop := op_blind (k := k) hm hb hc
      exact hfilled ((Regular.log_bind (fun _ => .exec k os) (o.exec k) c as).subset hop)
    have hheld := op_held (k := k) o hblind hc
    have hnext {u : Unit} {c₁ : Con} {rest₁ : List Answer} (hr : o.exec k c as = .done u c₁ rest₁) :
        FirstFails (exec k os c₁ rest₁).con.log ∧ Event.unfilled ∉ (exec k os c₁ rest₁).con.log ∧
          ∀ later, Quiet (exec k os c₁ (rest₁ ++ later)).con.log := by
      rw [exec_cons_done hr] at hfail hfilled
      refine ⟨hfail, hfilled, ?_⟩
      intro later
      have hq := hquiet later
      rwa [exec_cons_done ((Regular.op k o).mono hr later)] at hq
    have hreckless (u : Unit) (c₁ : Con) (rest₁ : List Answer) (hr : o.exec k c as = .done u c₁ rest₁) (herr : c₁.error ≠ 0) :
        ∀ o' ∈ os, ¬ o'.Reckless k := by
      rw [hr] at hheld
      obtain hgoing | hstopped := hheld
      · exact absurd hgoing.error herr
      · obtain ⟨hfail', -, hquiet'⟩ := hnext hr
        exact hstopped.not_reckless hfail' hquiet'
    intro before o' after u c' rest hos hbefore herr
    cases before with
    | nil =>
      cases hos
      cases hbefore
      exact ⟨hblind, hreckless⟩
    | cons o₁ before =>
      cases hos
      cases hr : o.exec k c as with
      | wait c₁ =>
        rw [exec, bind_apply, hr] at hbefore
        cases hbefore
      | done u₁ c₁ rest₁ =>
        obtain ⟨hfail', hfilled', hquiet'⟩ := hnext hr
        have hno := hreckless u₁ c₁ rest₁ hr
        rw [exec_cons_done hr] at hbefore
        rw [hr] at hheld
        obtain hgoing | hstopped := hheld
        · exact ih hgoing hfail' hfilled' hquiet' before o' after u c' rest rfl hbefore herr
        · have hidle : ∀ o ∈ before, ¬ o.Reckless k := fun o ho => hno hstopped.error o (mem_append_left _ ho)
          obtain ⟨us, hus⟩ := @exec_idle k c₁ rest₁ before hidle hstopped.error
          rw [hus] at hbefore
          cases hbefore
          exact absurd herr hstopped.error

end

/-- `as` are the answers up to the first call that fails, to which it is the last. -/
theorem stop_iff (env : Env) (k : Console) {h w : Wr} (bufs : List UvBuf) (c : Con) {as : List Answer}
    {r : Res Unit} {rs : List Reaction} (hops : feedAll env h (bytesOf bufs) = some (w, rs))
    (hwrite : writeBufs env k h bufs c as = some (w, r)) (hfail : FirstFails r.con.log) :
    (∀ later, Heeded env k h bufs c (as ++ later)) ↔ Sound k (opsOf rs) c.start as := by
  have hgoing : Going c.start := ⟨rfl, .nil⟩
  have hexec (as : List Answer) : writeBufs env k h bufs c as = some (w, exec k (opsOf rs) c.start as) := write_execs hops c as
  rw [hexec as] at hwrite
  cases some.inj hwrite
  constructor
  · intro hheeded
    have hall (later : List Answer) : Quiet (exec k (opsOf rs) c.start (as ++ later)).con.log ∧
        Event.unfilled ∉ (exec k (opsOf rs) c.start (as ++ later)).con.log := by
      obtain ⟨w', r', hwrite', hquiet, hfilled, -⟩ := hheeded later
      rw [hexec] at hwrite'
      cases some.inj hwrite'
      exact ⟨hquiet, hfilled⟩
    have hnow := (hall []).2
    rw [append_nil] at hnow
    exact Sound.of_quiet hgoing hfail hnow fun later => (hall later).1
  · intro hsound later
    obtain ⟨c', rest, hdone, hstopped⟩ := hsound.stops hgoing hfail.not_calm later
    obtain ⟨hquiet, hfilled, herror⟩ := hstopped.quiet
    refine ⟨w, .done () c' rest, ?_, hquiet, hfilled, ?_, ?_⟩
    · rw [hexec, hdone]
    · intro u c'' rest' heq
      cases heq
      exact herror
    · exact fun as' => ⟨_, hexec as'⟩

/-- A window of 80 by 25 characters, the caret in the middle. -/
def screen : Info := ⟨⟨80, 25⟩, ⟨40, 12⟩, 7, 0, 24⟩

def plainConsole : Console := ⟨⟨7, 7, 0, false, false, false, ⟨25, true⟩⟩, ⟨⟨0, 0⟩, ⟨0, 0⟩, 0, 0, 0⟩⟩

def newCon : Con := ⟨[], 0, [], ⟨0, 80, 25⟩, none, none⟩

/-- A call that succeeds, and one that fails with `ERROR_INVALID_HANDLE`. -/
def succeeds : Answer := ⟨0, screen, ⟨25, true⟩, 0⟩

def fails : Answer := ⟨6, screen, ⟨25, true⟩, 0⟩

/-- `A ESC [ J B`: the text is written, the query of the clearing fails, and there is no more output. -/
theorem stop_iff_clear :
    Heeded plainEnv plainConsole newTty [⟨[0x41, 0x1b, 0x5b, 0x4a, 0x42], by decide⟩] newCon ([succeeds, fails] ++ [succeeds]) := by
  have hbytes : feedAll plainEnv newTty (bytesOf [⟨[0x41, 0x1b, 0x5b, 0x4a, 0x42], by decide⟩]) =
      some (⟨⟨0, 0x42, 0, ANSI_NORMAL⟩, newTty.args⟩, [.put [0x41], .nothing, .nothing, .control (.clear 0 true), .put [0x42]]) := by
    decide
  refine (stop_iff plainEnv plainConsole _ newCon hbytes (write_execs hbytes newCon [succeeds, fails])
    ⟨[.call (.writeConsole [0x41]) .ok], .getScreenBufferInfo, 6, [], by decide, ?_, ?_⟩).mpr ?_ [succeeds]
  · intro ev hev
    exact ⟨.writeConsole [0x41], .inl (mem_singleton.mp hev)⟩
  · intro ev hev
    cases hev
  · have hops : ∀ o ∈ opsOf [.put [0x41], .nothing, .nothing, .control (.clear 0 true), .put [0x42]],
        (∀ c, ¬ o.Moves c) ∧ ¬ o.Reckless plainConsole := by
      intro o ho
      simp only [opsOf, ops, flatMap_cons, flatMap_nil, cons_append, nil_append, mem_cons,
        not_mem_nil, or_false] at ho
      obtain rfl | rfl | rfl | rfl | rfl := ho
      all_goals exact ⟨fun _ hm => hm, fun hm => hm⟩
    intro before o after u c' rest hos _ _
    rw [hos] at hops
    refine ⟨fun hm => (hops o (by simp)).1 c' hm.1, ?_⟩
    intro _ _ _ _ _ o' ho'
    exact (hops o' (by simp [ho'])).2

/-- `ESC [ A`: the query fails, and the caret is moved to where the local variable says. -/
theorem caret_goes_on :
    ¬ ∀ (env : Env) (k : Console) (h w : Wr) (bufs : List UvBuf) (c : Con) (as later : List Answer) (r : Res Unit),
      Reachable h → writeBufs env k h bufs c as = some (w, r) → FirstFails r.con.log → Heeded env k h bufs c (as ++ later) := by
  intro hall
  have hbytes : feedAll plainEnv newTty (bytesOf [⟨[0x1b, 0x5b, 0x41], by decide⟩]) =
      some (⟨⟨0, 0x41, 0, ANSI_NORMAL⟩, newTty.args⟩, [.nothing, .nothing, .control (.moveCaret 0 true (-1) true)]) := by decide
  have hfirst : FirstFails (exec plainConsole (opsOf [.nothing, .nothing, .control (.moveCaret 0 true (-1) true)]) newCon.start
      [fails]).con.log :=
    ⟨[], .getScreenBufferInfo, 6, [.unfilled], by decide, .nil, fun ev hev => mem_singleton.mp hev⟩
  obtain ⟨w, r, hwrite, -, hfilled, -⟩ := hall plainEnv plainConsole newTty _ _ newCon [fails] [succeeds] _ (.init _)
    (write_execs hbytes newCon [fails]) hfirst
  cases some.inj hwrite
  exact hfilled (by decide)

end Libuv.L5.TtyErrors
