import Mathlib.Tactic

/-!
# Output to a console (`win/tty.c`)

`uv__tty_write_bufs` turns UTF-8 bytes into writes of UTF-16 units and, where the console knows no escape sequences itself
(`vterm`), into calls of the functions that move its caret, clear it and set its style. What is not finished at the end of a
call stays in the handle: the code point with the bytes that it still misses, the end of line that was written last, and the
state of the parser, which for the time of the call are in locals; the arguments of a sequence, which are in the handle all
the time.

`_BitScanReverse` finds the highest bit of a byte, and says so if there is none. The other compilers have `__builtin_clz`,
which says nothing about 0; its value there is `clz0`. A call of the console may fail (`fails`), which ends the output
of the call of `uv__tty_write_bufs` but not its parser. `none` is the `abort()` of a parser in no state of its own, and an
access outside of an array.

* `errors_keep_state`: a console that fails leaves the same parser.
* `write_split`: the same bytes give the same output, in writes of whole characters that fit.
* `pair_split`: an encoded surrogate is a character of its own.
-/
namespace Libuv.L5.TtyWrite

open Option

def UNICODE_REPLACEMENT_CHARACTER : UInt32 := 0xfffd
def MAX_CONSOLE_CHAR : ℕ := 8192

def ANSI_NORMAL : UInt16 := 0x0000
def ANSI_ESCAPE_SEEN : UInt16 := 0x0002
def ANSI_CSI : UInt16 := 0x0004
def ANSI_ST_CONTROL : UInt16 := 0x0008
def ANSI_IGNORE : UInt16 := 0x0010
def ANSI_IN_ARG : UInt16 := 0x0020
def ANSI_IN_STRING : UInt16 := 0x0040
def ANSI_BACKSLASH_SEEN : UInt16 := 0x0080
def ANSI_EXTENSION : UInt16 := 0x0100
def ANSI_DECSCUSR : UInt16 := 0x0200

/-- What `uv__tty_write_bufs` keeps in locals. -/
structure Cache where
  utf8BytesLeft : UInt8
  utf8Codepoint : UInt32
  previousEol : UInt8
  ansiParserState : UInt16
deriving DecidableEq

/-- `ansi_csi_argc`, `ansi_csi_argv` -/
structure CsiArgs where
  argc : UInt8
  argv : Vector UInt16 4
deriving DecidableEq

/-- `handle->tty.wr` -/
structure Wr where
  cache : Cache
  args : CsiArgs
deriving DecidableEq

/-- A console for writing. The arguments are left as they are.
mirrors win/tty.c:270-283 -/
def Wr.init (args : CsiArgs) : Wr := ⟨⟨0, 0, 0, ANSI_NORMAL⟩, args⟩

inductive Compiler
  | msc
  | gcc (clz0 : UInt32)
deriving DecidableEq

/-- `vterm`: `uv__vterm_state` is `UV_TTY_SUPPORTED`. `fails`: the error of each call of the console, in order; 0 is none. -/
structure Env where
  cc : Compiler
  vterm : Bool
  fails : ℕ → UInt32

/-- Calls of the functions that control the console, with what they are given. -/
inductive Action
  | reset
  | saveState (attributes : Bool)
  | restoreState (attributes : Bool)
  | setCursorShape (style : ℤ)
  | setCursorVisibility (visible : Bool)
  | moveCaret (x : ℤ) (xRelative : Bool) (y : ℤ) (yRelative : Bool)
  | clear (dir : ℤ) (entireScreen : Bool)
  | setStyle (args : List UInt16)
deriving DecidableEq

/-! ### Code points -/

/-- mirrors win/tty.c:1720-1729 -/
def firstZeroBit (cc : Compiler) (c : UInt8) : Option UInt32 :=
  let notC := ~~~ c
  match cc with
  | .msc => if notC = 0 then none else some notC.toUInt32.log2
  | .gcc clz0 =>
    if c = 0 then none
    else some (31 - (if notC = 0 then clz0 else 31 - notC.toUInt32.log2))

/-- The decoder, and whether the byte is to be looked at again.
mirrors win/tty.c:1716-1761 -/
def decode (cc : Compiler) (s : Cache) (c : UInt8) : Cache × Bool :=
  if s.utf8BytesLeft = 0 then
    match firstZeroBit cc c with
    | some bit =>
      if bit = 7 then ({ s with utf8Codepoint := c.toUInt32 }, false)
      else if bit ≤ 5 then
        ({ s with utf8Codepoint := (0xff >>> (8 - bit)) &&& c.toUInt32, utf8BytesLeft := (6 - bit).toUInt8 }, false)
      else ({ s with utf8Codepoint := UNICODE_REPLACEMENT_CHARACTER }, false)
    | none => ({ s with utf8Codepoint := UNICODE_REPLACEMENT_CHARACTER }, false)
  else if c &&& 0xc0 = 0x80 then
    ({ s with utf8BytesLeft := s.utf8BytesLeft - 1
              utf8Codepoint := (s.utf8Codepoint <<< 6) ||| (c.toUInt32 &&& 0x3f) }, false)
  else ({ s with utf8BytesLeft := 0, utf8Codepoint := UNICODE_REPLACEMENT_CHARACTER }, true)

/-! ### Escape sequences -/

/-- What is left to do for a code point: nothing, `FLUSH_TEXT()` alone or before an action, or its output. -/
inductive Escape
  | skip
  | flush
  | control (a : Action)
  | print
deriving DecidableEq

structure Parsed where
  state : UInt16
  args : CsiArgs
  esc : Escape
deriving DecidableEq

namespace CsiArgs
variable (a : CsiArgs)

/-- `argc ? argv[0] : d` -/
def first (d : ℤ) : ℤ := if a.argc = 0 then d else a.argv[0].toNat

/-- `argc > i && argv[i] ? argv[i] - 1 : 0` -/
def coord (i : ℕ) : ℤ :=
  match a.argv[i]? with
  | some v => if i < a.argc.toNat ∧ v ≠ 0 then v.toNat - 1 else 0
  | none => 0

/-- `ansi_csi_argv[ansi_csi_argc - 1]` -/
def last : Option (Fin 4) :=
  if h : 0 < a.argc.toNat ∧ a.argc.toNat ≤ 4 then some ⟨a.argc.toNat - 1, by omega⟩ else none

def set (i : Fin 4) (v : UInt16) : CsiArgs := { a with argv := a.argv.set i v }

def push (v : UInt16) : Option CsiArgs := do
  let a : CsiArgs := { a with argc := a.argc + 1 }
  let i ← a.last
  return a.set i v

/-- The arguments that `uv__tty_set_style` goes through. -/
def given : Option (List UInt16) := if a.argc.toNat ≤ 4 then some (a.argv.toList.take a.argc.toNat) else none

end CsiArgs

/-- mirrors win/tty.c:1771-1781 -/
def ansiNormal (a : CsiArgs) (cp : UInt32) : Parsed :=
  if cp = 0x1b then ⟨ANSI_ESCAPE_SEEN, a, .skip⟩
  else if cp = 0x9b then ⟨ANSI_CSI, { a with argc := 0 }, .skip⟩
  else ⟨ANSI_NORMAL, a, .print⟩

/-- mirrors win/tty.c:1783-1833 -/
def ansiEscapeSeen (a : CsiArgs) (cp : UInt32) : Parsed :=
  if cp = '['.val then ⟨ANSI_CSI, { a with argc := 0 }, .skip⟩
  else if cp = '^'.val ∨ cp = '_'.val ∨ cp = 'P'.val ∨ cp = ']'.val then ⟨ANSI_ST_CONTROL, a, .skip⟩
  else if cp = 0x1b then ⟨ANSI_ESCAPE_SEEN, a, .skip⟩
  else if cp = 'c'.val then ⟨ANSI_NORMAL, a, .control .reset⟩
  else if cp = '7'.val then ⟨ANSI_NORMAL, a, .control (.saveState true)⟩
  else if cp = '8'.val then ⟨ANSI_NORMAL, a, .control (.restoreState true)⟩
  else if '@'.val ≤ cp ∧ cp ≤ '_'.val then ⟨ANSI_NORMAL, a, .skip⟩
  else ⟨ANSI_NORMAL, a, .print⟩

/-- mirrors win/tty.c:1835-1840 -/
def ansiIgnore (a : CsiArgs) (cp : UInt32) : Parsed :=
  if '@'.val ≤ cp ∧ cp ≤ '~'.val then ⟨ANSI_NORMAL, a, .skip⟩ else ⟨ANSI_IGNORE, a, .skip⟩

/-- The character that ends no sequence is written.
mirrors win/tty.c:1842-1863 -/
def ansiDecscusr (a : CsiArgs) (cp : UInt32) : Parsed :=
  if '@'.val ≤ cp ∧ cp ≤ '~'.val then
    if cp = 'q'.val ∧ 0 ≤ a.first 1 ∧ a.first 1 ≤ 6 then ⟨ANSI_NORMAL, a, .control (.setCursorShape (a.first 1))⟩
    else ⟨ANSI_NORMAL, a, .skip⟩
  else ⟨ANSI_IGNORE, a, .print⟩

/-- `ESC [ ? args command`
mirrors win/tty.c:1943-1964 -/
def extension (a : CsiArgs) (cp : UInt32) : Escape :=
  if cp = 'l'.val ∧ a.argc = 1 ∧ a.argv[0] = 25 then .control (.setCursorVisibility false)
  else if cp = 'h'.val ∧ a.argc = 1 ∧ a.argv[0] = 25 then .control (.setCursorVisibility true)
  else .skip

/-- `ESC [ args command`
mirrors win/tty.c:1966-2077 -/
def command (a : CsiArgs) (cp : UInt32) : Option Escape :=
  if cp = 'A'.val then some (.control (.moveCaret 0 true (-a.first 1) true))
  else if cp = 'B'.val then some (.control (.moveCaret 0 true (a.first 1) true))
  else if cp = 'C'.val then some (.control (.moveCaret (a.first 1) true 0 true))
  else if cp = 'D'.val then some (.control (.moveCaret (-a.first 1) true 0 true))
  else if cp = 'E'.val then some (.control (.moveCaret 0 false (a.first 1) true))
  else if cp = 'F'.val then some (.control (.moveCaret 0 false (-a.first 1) true))
  else if cp = 'G'.val then some (.control (.moveCaret (a.coord 0) false 0 true))
  else if cp = 'H'.val ∨ cp = 'f'.val then some (.control (.moveCaret (a.coord 1) false (a.coord 0) false))
  else if cp = 'J'.val then
    some (if 0 ≤ a.first 0 ∧ a.first 0 ≤ 2 then .control (.clear (a.first 0) true) else .flush)
  else if cp = 'K'.val then
    some (if 0 ≤ a.first 0 ∧ a.first 0 ≤ 2 then .control (.clear (a.first 0) false) else .flush)
  else if cp = 'm'.val then a.given.map fun args => .control (.setStyle args)
  else if cp = 's'.val then some (.control (.saveState false))
  else if cp = 'u'.val then some (.control (.restoreState false))
  else some .skip

/-- mirrors win/tty.c:1869-1899 -/
def digit (st : UInt16) (a : CsiArgs) (cp : UInt32) : Option Parsed :=
  if st &&& ANSI_IN_ARG = 0 then
    if 4 ≤ a.argc then some ⟨ANSI_IGNORE, a, .skip⟩
    else do
      let a ← a.push (cp - '0'.val).toUInt16
      return ⟨st ||| ANSI_IN_ARG, a, .skip⟩
  else do
    let i ← a.last
    let value : UInt32 := 10 * a.argv[i].toUInt32
    if 0xffff < value then return ⟨ANSI_IGNORE, a, .skip⟩
    else return ⟨st, a.set i (value + (cp - '0'.val)).toUInt16, .skip⟩

/-- mirrors win/tty.c:1901-1922 -/
def semicolon (st : UInt16) (a : CsiArgs) : Option Parsed :=
  if st &&& ANSI_IN_ARG ≠ 0 then some ⟨st &&& ~~~ ANSI_IN_ARG, a, .skip⟩
  else if 4 ≤ a.argc then some ⟨ANSI_IGNORE, a, .skip⟩
  else do
    let a ← a.push 0
    return ⟨st, a, .skip⟩

/-- mirrors win/tty.c:1865-2088 -/
def ansiCsi (st : UInt16) (a : CsiArgs) (cp : UInt32) : Option Parsed :=
  if '0'.val ≤ cp ∧ cp ≤ '9'.val then digit st a cp
  else if cp = ';'.val then semicolon st a
  else if cp = '?'.val ∧ st &&& ANSI_IN_ARG = 0 ∧ st &&& ANSI_EXTENSION = 0 ∧ a.argc = 0 then
    some ⟨st ||| ANSI_EXTENSION, a, .skip⟩
  else if cp = ' '.val ∧ st &&& ANSI_EXTENSION = 0 then some ⟨ANSI_DECSCUSR, a, .skip⟩
  else if '@'.val ≤ cp ∧ cp ≤ '~'.val then do
    let esc ← if st &&& ANSI_EXTENSION ≠ 0 then some (extension a cp) else command a cp
    return ⟨ANSI_NORMAL, a, esc⟩
  else some ⟨ANSI_IGNORE, a, .skip⟩

/-- mirrors win/tty.c:2090-2123 -/
def ansiStControl (st : UInt16) (cp : UInt32) : UInt16 :=
  if st &&& ANSI_IN_STRING ≠ 0 then
    if st &&& ANSI_BACKSLASH_SEEN = 0 then
      if cp = '"'.val then st &&& ~~~ ANSI_IN_STRING
      else if cp = '\\'.val then st ||| ANSI_BACKSLASH_SEEN
      else st
    else st &&& ~~~ ANSI_BACKSLASH_SEEN
  else if cp = 7 ∨ cp = '\\'.val ∧ st &&& ANSI_ESCAPE_SEEN ≠ 0 then ANSI_NORMAL
  else if cp = 0x1b then st ||| ANSI_ESCAPE_SEEN
  else if cp = '"'.val then ((st ||| ANSI_IN_STRING) &&& ~~~ ANSI_ESCAPE_SEEN) &&& ~~~ ANSI_BACKSLASH_SEEN
  else st &&& ~~~ ANSI_ESCAPE_SEEN

/-- mirrors win/tty.c:1768-2128 -/
def parse (vterm : Bool) (st : UInt16) (a : CsiArgs) (cp : UInt32) : Option Parsed :=
  if vterm then some ⟨st, a, .print⟩
  else if st = ANSI_NORMAL then some (ansiNormal a cp)
  else if st = ANSI_ESCAPE_SEEN then some (ansiEscapeSeen a cp)
  else if st = ANSI_IGNORE then some (ansiIgnore a cp)
  else if st = ANSI_DECSCUSR then some (ansiDecscusr a cp)
  else if st &&& ANSI_CSI ≠ 0 then ansiCsi st a cp
  else if st &&& ANSI_ST_CONTROL ≠ 0 then some ⟨ansiStControl st cp, a, .skip⟩
  else none

/-! ### Characters -/

/-- The units of a code point, and the locals after them. A line feed becomes two units, and a carriage return next to
a line feed none.
mirrors win/tty.c:2130-2164 -/
def encode (s : Cache) : List UInt16 × Cache :=
  let cp := s.utf8Codepoint
  if cp = 0x0a ∨ cp = 0x0d then
    (if cp = 0x0a ∧ s.previousEol ≠ 0x0d then [0x0d, 0x0a]
      else if cp = 0x0d ∧ s.previousEol = 0x0a then []
      else [cp.toUInt16], { s with previousEol := cp.toUInt8 })
  else if cp ≤ 0xffff then ([cp.toUInt16], { s with previousEol := 0 })
  else
    let cp := cp - 0x10000
    ([(cp / 0x400 + 0xD800).toUInt16, (cp % 0x400 + 0xDC00).toUInt16],
      { s with utf8Codepoint := cp, previousEol := 0 })

/-- What one byte asks of the console: `flush` without an action, an action, or the units of a character. -/
inductive Reaction
  | nothing
  | flush
  | control (a : Action)
  | put (units : List UInt16)
deriving DecidableEq

/-- A round of the loop, less its output. `back` is the `j--`. -/
structure Round where
  wr : Wr
  reaction : Reaction
  back : Bool
deriving DecidableEq

/-- mirrors win/tty.c:1712-2165 -/
def react (env : Env) (w : Wr) (c : UInt8) : Option Round :=
  let d := decode env.cc w.cache c
  if d.1.utf8BytesLeft ≠ 0 then some ⟨⟨d.1, w.args⟩, .nothing, d.2⟩
  else do
    let p ← parse env.vterm d.1.ansiParserState w.args d.1.utf8Codepoint
    let s := { d.1 with ansiParserState := p.state }
    match p.esc with
    | .skip => return ⟨⟨s, p.args⟩, .nothing, d.2⟩
    | .flush => return ⟨⟨s, p.args⟩, .flush, d.2⟩
    | .control a => return ⟨⟨s, p.args⟩, .control a, d.2⟩
    | .print => return ⟨⟨(encode s).2, p.args⟩, .put (encode s).1, d.2⟩

/-! ## The console -/

/-- What reaches the console: a `WriteConsoleW` or an action. -/
inductive Call
  | text (units : List UInt16)
  | control (a : Action)
deriving DecidableEq

/-- `utf16_buf[0, utf16_buf_used)`, what has reached the console, `*error`, and how often the console was called. -/
structure Out where
  units : List UInt16
  calls : List Call
  error : UInt32
  count : ℕ
deriving DecidableEq

def Out.empty : Out := ⟨[], [], 0, 0⟩

/-- Whether the function does nothing after an error. -/
def Action.guarded : Action → Bool
  | .setCursorShape _ => false
  | .setCursorVisibility _ => false
  | .setStyle _ => false
  | _ => true

namespace Out
variable (env : Env) (o : Out)

def attempt (c : Call) : Out :=
  if env.fails o.count = 0 then { o with calls := o.calls ++ [c], count := o.count + 1 }
  else { o with error := env.fails o.count, count := o.count + 1 }

/-- mirrors win/tty.c:1200-1218 -/
def emitText : Out := if o.error ≠ 0 then o else o.attempt env (.text o.units)

/-- mirrors win/tty.c:1684-1690 (`FLUSH_TEXT`) -/
def flushText : Out := if o.units.length > 0 then { o.emitText env with units := [] } else o

/-- mirrors win/tty.c:1692-1695 (`ENSURE_BUFFER_SPACE`) -/
def ensureBufferSpace (wcharsNeeded : ℕ) : Out :=
  if wcharsNeeded > MAX_CONSOLE_CHAR - o.units.length then o.flushText env else o

def act (a : Action) : Out := if a.guarded ∧ o.error ≠ 0 then o else o.attempt env (.control a)

def apply : Reaction → Out
  | .nothing => o
  | .flush => o.flushText env
  | .control a => (o.flushText env).act env a
  | .put us => { o.ensureBufferSpace env us.length with units := (o.ensureBufferSpace env us.length).units ++ us }

end Out

/-! ## `uv__tty_write_bufs` -/

/-- `uv_buf_t`: the length is an `unsigned long`. -/
structure UvBuf where
  base : List UInt8
  len_lt : base.length < 2 ^ 32
deriving DecidableEq

/-- In the course of the function: its locals, the handle, of which only the arguments change, and the output. -/
structure Loop where
  locals : Cache
  handle : Wr
  out : Out
deriving DecidableEq

def Loop.wr (s : Loop) : Wr := ⟨s.locals, s.handle.args⟩

def Loop.step (env : Env) (s : Loop) (r : Round) : Loop :=
  ⟨r.wr.cache, { s.handle with args := r.wr.args }, s.out.apply env r.reaction⟩

/-- The loop over one buffer, from index `j` on, with at most `fuel` rounds to go. The index steps back below 0, and from
there on again.
mirrors win/tty.c:1712-2166 -/
def scan (env : Env) (base : List UInt8) : ℕ → UInt32 → Loop → Option Loop
  | 0, _, _ => none
  | fuel + 1, j, s =>
    if j.toNat < base.length then do
      let c ← base[j.toNat]?
      let r ← react env s.wr c
      let j := if r.back then j - 1 else j
      scan env base fuel (j + 1) (s.step env r)
    else some s

def scanBufs (env : Env) : List UvBuf → Loop → Option Loop
  | [], s => some s
  | buf :: bufs, s => do
    let s ← scan env buf.base (2 * buf.base.length + 1) 0 s
    scanBufs env bufs s

/-- One call: the handle after it, and what has reached the console.
mirrors win/tty.c:1674-2185 -/
def writeBufs (env : Env) (h : Wr) (bufs : List UvBuf) : Option (Wr × List Call) := do
  let s ← scanBufs env bufs ⟨h.cache, h, Out.empty⟩
  return ({ s.handle with cache := s.locals }, (s.out.flushText env).calls)

def run (env : Env) : Wr → List (List UvBuf) → Option (Wr × List Call)
  | h, [] => some (h, [])
  | h, bufs :: rest => do
    let (h, t) ← writeBufs env h bufs
    let (h, t') ← run env h rest
    return (h, t ++ t')

def bytesOf (bufs : List UvBuf) : List UInt8 := bufs.flatMap UvBuf.base

def bytes (calls : List (List UvBuf)) : List UInt8 := calls.flatMap bytesOf

/-- What a handle can be after some calls. Meanwhile the console may have failed, and `uv_tty_set_vterm_state` may have
been called. -/
inductive Reachable : Wr → Prop
  | init (args : CsiArgs) : Reachable (Wr.init args)
  | write {env : Env} {h h' : Wr} {bufs : List UvBuf} {t : List Call} :
      Reachable h → writeBufs env h bufs = some (h', t) → Reachable h'

/-- The text before the first action, and each action with the text that follows it. -/
def segments : List Call → List UInt16 × List (Action × List UInt16)
  | [] => ([], [])
  | .text us :: t => (us ++ (segments t).1, (segments t).2)
  | .control a :: t => ([], (a, (segments t).1) :: (segments t).2)

/-! ## The bytes one after the other -/

def feed (env : Env) (w : Wr) (c : UInt8) : Option (Wr × List Reaction) := do
  let r ← react env w c
  if r.back then do
    let r' ← react env r.wr c
    return (r'.wr, [r.reaction, r'.reaction])
  else return (r.wr, [r.reaction])

def feedAll (env : Env) : Wr → List UInt8 → Option (Wr × List Reaction)
  | w, [] => some (w, [])
  | w, c :: bs => do
    let (w, rs) ← feed env w c
    let (w, rs') ← feedAll env w bs
    return (w, rs ++ rs')

theorem feedAll_append (env : Env) (w : Wr) (bs bs' : List UInt8) :
    feedAll env w (bs ++ bs') =
      (feedAll env w bs).bind fun x => (feedAll env x.1 bs').map fun y => (y.1, x.2 ++ y.2) := by
  induction bs generalizing w with
  | nil =>
    rw [List.nil_append, feedAll, bind_some]
    cases feedAll env w bs' with
    | none | some y => rfl
  | cons c bs ih =>
    rw [List.cons_append, feedAll, feedAll]
    cases feed env w c with
    | none => rfl
    | some x =>
      simp only [bind_eq_bind, bind_some]
      rw [ih x.1]
      cases feedAll env x.1 bs with
      | none => rfl
      | some y =>
        cases hz : feedAll env y.1 bs' with
        | none => simp [hz]
        | some z => simp [hz, List.append_assoc]

variable {env : Env} {w : Wr} {rs : List Reaction} {c : UInt8} {base : List UInt8} {x : Wr × List Reaction}

theorem feedAll_append_some {w' : Wr} {bs bs' : List UInt8}
    (h : feedAll env w (bs ++ bs') = some (w', rs)) :
    ∃ x y, feedAll env w bs = some x ∧ feedAll env x.1 bs' = some y ∧ y.1 = w' ∧ x.2 ++ y.2 = rs := by
  rw [feedAll_append] at h
  obtain ⟨x, hx, h⟩ := bind_eq_some_iff.mp h
  obtain ⟨y, hy, hxy⟩ := map_eq_some_iff.mp h
  obtain ⟨hw, hrs⟩ := Prod.mk.inj hxy
  exact ⟨x, y, hx, hy, hw, hrs⟩

/-! ### The second round -/

theorem decode_start {s : Cache} {cc : Compiler} (h : s.utf8BytesLeft = 0) : (decode cc s c).2 = false := by
  rw [decode, if_pos h]
  split
  · split_ifs
    · rfl
    · rfl
    · rfl
  · rfl

theorem decode_back {s : Cache} {cc : Compiler} (h : (decode cc s c).2 = true) :
    (decode cc s c).1.utf8BytesLeft = 0 := by
  by_cases h0 : s.utf8BytesLeft = 0
  · rw [decode_start h0] at h
    cases h
  · rw [decode] at h ⊢
    split_ifs at h ⊢
    · rfl

theorem encode_keeps (s : Cache) :
    (encode s).2.utf8BytesLeft = s.utf8BytesLeft ∧ (encode s).2.ansiParserState = s.ansiParserState := by
  rw [encode]
  by_cases heol : s.utf8Codepoint = 0x0a ∨ s.utf8Codepoint = 0x0d
  · rw [if_pos heol]
    exact ⟨rfl, rfl⟩
  · split_ifs
    · exact ⟨rfl, rfl⟩
    · exact ⟨rfl, rfl⟩

structure Round.Of (r : Round) (d : Cache × Bool) : Prop where
  back : r.back = d.2
  bytesLeft : r.wr.cache.utf8BytesLeft = d.1.utf8BytesLeft
  reaction : (∀ us, r.reaction ≠ .put us) ∨ ∃ s, r.reaction = .put (encode s).1

theorem react_spec {r : Round} (h : react env w c = some r) :
    r.Of (decode env.cc w.cache c) := by
  rw [react] at h
  split_ifs at h with hb
  · cases some.inj h
    exact ⟨rfl, rfl, .inl fun us hf => by cases hf⟩
  · simp only [bind_eq_bind, bind_eq_some_iff] at h
    obtain ⟨p, hp, h⟩ := h
    cases he : p.esc with
    | skip | flush | control a => rw [he] at h; cases some.inj h; exact ⟨rfl, rfl, .inl fun us hf => by cases hf⟩
    | print => rw [he] at h; cases some.inj h; exact ⟨rfl, (encode_keeps _).1, .inr ⟨_, rfl⟩⟩

theorem react_twice {c' : UInt8} {r r' : Round} (h : react env w c = some r) (hb : r.back = true)
    (h' : react env r.wr c' = some r') : r'.back = false := by
  obtain ⟨hback, hleft, -⟩ := react_spec h
  rw [(react_spec h').back]
  apply decode_start
  rw [hleft]
  exact decode_back (hback.symm.trans hb)

/-! ### The loops -/

/-- The loop after the bytes that have made of the parser `x.1`, with the reactions `x.2`. -/
def Loop.after (env : Env) (s : Loop) (x : Wr × List Reaction) : Loop :=
  ⟨x.1.cache, { s.handle with args := x.1.args }, x.2.foldl (Out.apply env) s.out⟩

theorem Loop.after_after (env : Env) (s : Loop) (x y : Wr × List Reaction) :
    (s.after env x).after env y = s.after env (y.1, x.2 ++ y.2) := by
  simp [after, List.foldl_append]

theorem succ_toNat {j : UInt32} {n : ℕ} (h : j.toNat < n) (hn : n < 2 ^ 32) : (j + 1).toNat = j.toNat + 1 := by
  change (j.toNat + 1) % 2 ^ 32 = j.toNat + 1
  omega

/-- The loop over one buffer, whatever is done with its reactions. -/
def scanWith {σ : Type} (env : Env) (apply : σ → Reaction → σ) (base : List UInt8) : ℕ → UInt32 → Wr → σ → Option (Wr × σ)
  | 0, _, _, _ => none
  | fuel + 1, j, w, o =>
    if j.toNat < base.length then do
      let c ← base[j.toNat]?
      let r ← react env w c
      let j := if r.back then j - 1 else j
      scanWith env apply base fuel (j + 1) r.wr (apply o r.reaction)
    else some (w, o)

theorem scanWith_feeds {σ : Type} {apply : σ → Reaction → σ} (hlen : base.length < 2 ^ 32)
    {rest : List UInt8} {fuel : ℕ} {j : UInt32} {o : σ} (hrest : base.drop j.toNat = rest)
    (hj : j.toNat ≤ base.length) (hfuel : 2 * rest.length < fuel) (hx : feedAll env w rest = some x) :
    scanWith env apply base fuel j w o = some (x.1, x.2.foldl apply o) := by
  induction rest generalizing fuel j w o x with
  | nil =>
    obtain ⟨fuel, rfl⟩ := Nat.exists_eq_succ_of_ne_zero (show fuel ≠ 0 by omega)
    have hend : ¬ j.toNat < base.length := by
      have := congrArg List.length hrest
      rw [List.length_drop] at this
      change base.length - j.toNat = 0 at this
      omega
    cases some.inj hx
    rw [scanWith, if_neg hend]
    rfl
  | cons c rest ih =>
    rw [List.length_cons] at hfuel
    obtain ⟨fuel, rfl⟩ := Nat.exists_eq_add_of_le (show 2 ≤ fuel by omega)
    have hlt : j.toNat < base.length := by
      have := congrArg List.length hrest
      rw [List.length_drop, List.length_cons] at this
      omega
    have hc : base[j.toNat]? = some c := by
      rw [← List.head?_drop, hrest]
      rfl
    have hnext := succ_toNat hlt hlen
    have hle : (j + 1).toNat ≤ base.length := by omega
    have hdrop : base.drop (j + 1).toNat = rest := by
      rw [hnext, ← List.drop_drop, hrest]
      rfl
    simp only [feedAll, feed, bind_eq_bind, bind_eq_some_iff] at hx
    obtain ⟨y, ⟨r, hr, hy⟩, z, hz, hxz⟩ := hx
    rw [show 2 + fuel = fuel + 1 + 1 by omega, scanWith, if_pos hlt]
    simp only [bind_eq_bind, hc, hr, bind_some]
    cases hb : r.back with
    | false =>
      rw [hb] at hy
      cases some.inj hy
      cases some.inj hxz
      exact ih hdrop hle (by omega) hz
    | true =>
      rw [hb, if_pos rfl] at hy
      simp only [bind_eq_some_iff] at hy
      obtain ⟨r', hr', hy⟩ := hy
      cases some.inj hy
      cases some.inj hxz
      rw [if_pos rfl, show j - 1 + 1 = j from UInt32.sub_add_cancel j 1, scanWith, if_pos hlt]
      simp only [bind_eq_bind, hc, hr', bind_some, react_twice hr hb hr']
      exact ih hdrop hle (by omega) hz

theorem scanWith_whole {σ : Type} {apply : σ → Reaction → σ} (hlen : base.length < 2 ^ 32)
    (o : σ) (hx : feedAll env w base = some x) :
    scanWith env apply base (2 * base.length + 1) 0 w o = some (x.1, x.2.foldl apply o) :=
  scanWith_feeds hlen rfl (Nat.zero_le _) (Nat.lt_succ_self _) hx

theorem scan_eq_scanWith (env : Env) (base : List UInt8) (fuel : ℕ) (j : UInt32) (s : Loop) :
    scan env base fuel j s =
      (scanWith env (Out.apply env) base fuel j s.wr s.out).map fun x => ⟨x.1.cache, { s.handle with args := x.1.args }, x.2⟩ := by
  induction fuel generalizing j s with
  | zero => rfl
  | succ fuel ih =>
    rw [scan, scanWith]
    split_ifs with hlt
    · cases hc : base[j.toNat]? with
      | none => rfl
      | some c =>
        cases hr : react env s.wr c with
        | none => simp [hr]
        | some r =>
          simp only [bind_eq_bind, bind_some, hr]
          rw [ih]
          rfl
    · rfl

theorem scan_feeds (hlen : base.length < 2 ^ 32) {s : Loop}
    (hx : feedAll env s.wr base = some x) : scan env base (2 * base.length + 1) 0 s = some (s.after env x) := by
  rw [scan_eq_scanWith, scanWith_whole hlen _ hx]
  rfl

theorem scanBufs_feeds {bufs : List UvBuf} {s : Loop}
    (hx : feedAll env s.wr (bytesOf bufs) = some (w, rs)) : scanBufs env bufs s = some (s.after env (w, rs)) := by
  induction bufs generalizing s rs with
  | nil =>
    cases some.inj hx
    rfl
  | cons buf bufs ih =>
    obtain ⟨x, y, hbuf, hbufs, rfl, rfl⟩ := feedAll_append_some hx
    have hscan := scan_feeds buf.len_lt hbuf
    rw [scanBufs]
    simp only [bind_eq_bind, hscan, bind_some]
    rw [ih (s := s.after env x) hbufs, Loop.after_after]

theorem write_feeds {h h' : Wr} {bufs : List UvBuf}
    (hx : feedAll env h (bytesOf bufs) = some (h', rs)) :
    writeBufs env h bufs = some (h', ((rs.foldl (Out.apply env) Out.empty).flushText env).calls) := by
  rw [writeBufs]
  simp only [bind_eq_bind, scanBufs_feeds (s := ⟨h.cache, h, Out.empty⟩) hx, bind_some]
  rfl

/-! ### The states of the parser -/

def states : List UInt16 :=
  [ANSI_NORMAL, ANSI_ESCAPE_SEEN, ANSI_IGNORE, ANSI_DECSCUSR,
    ANSI_CSI, ANSI_CSI ||| ANSI_IN_ARG, ANSI_CSI ||| ANSI_EXTENSION, ANSI_CSI ||| ANSI_EXTENSION ||| ANSI_IN_ARG,
    ANSI_ST_CONTROL, ANSI_ST_CONTROL ||| ANSI_ESCAPE_SEEN, ANSI_ST_CONTROL ||| ANSI_IN_STRING,
    ANSI_ST_CONTROL ||| ANSI_IN_STRING ||| ANSI_BACKSLASH_SEEN]

theorem of_states {P : UInt16 → Prop} [DecidablePred P] (hall : states.all (fun st => decide (P st)) = true) {st : UInt16}
    (hs : st ∈ states) : P st := of_decide_eq_true (List.all_eq_true.mp hall st hs)

/-- The arguments count only in a sequence; they were never initialised. -/
structure Ok (st : UInt16) (a : CsiArgs) : Prop where
  state : st ∈ states
  room : st &&& ANSI_CSI ≠ 0 → a.argc.toNat ≤ 4
  started : st &&& ANSI_IN_ARG ≠ 0 → 0 < a.argc.toNat

def Wr.Ok (w : Wr) : Prop := TtyWrite.Ok w.cache.ansiParserState w.args

section
variable {st : UInt16} {a : CsiArgs}

theorem Ok.outside (hs : st ∈ states) (hc : st &&& ANSI_CSI = 0) (hi : st &&& ANSI_IN_ARG = 0) : Ok st a :=
  ⟨hs, fun h => absurd hc h, fun h => absurd hi h⟩

theorem Ok.normal : Ok ANSI_NORMAL a := Ok.outside (by decide) (by decide) (by decide)
theorem Ok.escapeSeen : Ok ANSI_ESCAPE_SEEN a := Ok.outside (by decide) (by decide) (by decide)
theorem Ok.ignore : Ok ANSI_IGNORE a := Ok.outside (by decide) (by decide) (by decide)
theorem Ok.decscusr : Ok ANSI_DECSCUSR a := Ok.outside (by decide) (by decide) (by decide)
theorem Ok.stControl : Ok ANSI_ST_CONTROL a := Ok.outside (by decide) (by decide) (by decide)

theorem Ok.csi : Ok ANSI_CSI { a with argc := 0 } :=
  ⟨by decide, fun _ => Nat.zero_le _, fun h => absurd (by decide) h⟩

theorem ansiNormal_ok (cp : UInt32) : Ok (ansiNormal a cp).state (ansiNormal a cp).args := by
  rw [ansiNormal]
  split_ifs
  · exact Ok.escapeSeen
  · exact Ok.csi
  · exact Ok.normal

theorem ansiEscapeSeen_ok (cp : UInt32) : Ok (ansiEscapeSeen a cp).state (ansiEscapeSeen a cp).args := by
  rw [ansiEscapeSeen]
  split_ifs
  · exact Ok.csi
  · exact Ok.stControl
  · exact Ok.escapeSeen
  · exact Ok.normal
  · exact Ok.normal
  · exact Ok.normal
  · exact Ok.normal
  · exact Ok.normal

theorem ansiIgnore_ok (cp : UInt32) : Ok (ansiIgnore a cp).state (ansiIgnore a cp).args := by
  rw [ansiIgnore]
  split_ifs
  · exact Ok.normal
  · exact Ok.ignore

theorem ansiDecscusr_ok (cp : UInt32) : Ok (ansiDecscusr a cp).state (ansiDecscusr a cp).args := by
  rw [ansiDecscusr]
  split_ifs
  · exact Ok.normal
  · exact Ok.normal
  · exact Ok.ignore

theorem ansiStControl_ok (hs : st ∈ states) (hst : st &&& ANSI_ST_CONTROL ≠ 0) (cp : UInt32) :
    Ok (ansiStControl st cp) a := by
  have hcases := of_states (P := fun st => st &&& ANSI_ST_CONTROL ≠ 0 → (st = 0x8 ∨ st = 0xa) ∨ st = 0x48 ∨ st = 0xc8)
    (by decide) hs hst
  rw [ansiStControl]
  obtain (rfl | rfl) | rfl | rfl := hcases
  · rw [if_neg (by decide)]
    split_ifs
    all_goals exact Ok.outside (by decide) (by decide) (by decide)
  · rw [if_neg (by decide)]
    split_ifs
    all_goals exact Ok.outside (by decide) (by decide) (by decide)
  · rw [if_pos (by decide)]
    split_ifs
    all_goals exact Ok.outside (by decide) (by decide) (by decide)
  · rw [if_pos (by decide), if_neg (by decide)]
    exact Ok.outside (by decide) (by decide) (by decide)

/-! A sequence. -/

theorem last_of_le (h0 : 0 < a.argc.toNat) (h4 : a.argc.toNat ≤ 4) : ∃ i, a.last = some i :=
  ⟨_, dif_pos ⟨h0, h4⟩⟩

theorem argc_succ (h : ¬ 4 ≤ a.argc) : (a.argc + 1).toNat = a.argc.toNat + 1 ∧ a.argc.toNat < 4 := by
  have hlt : a.argc.toNat < 4 := Nat.lt_of_not_le fun h' => h (UInt8.le_iff_toNat_le.mpr h')
  change (a.argc.toNat + 1) % 2 ^ 8 = _ ∧ _
  omega

theorem push_ok (h : ¬ 4 ≤ a.argc) (v : UInt16) :
    ∃ a', a.push v = some a' ∧ 0 < a'.argc.toNat ∧ a'.argc.toNat ≤ 4 := by
  obtain ⟨hsucc, hlt⟩ := argc_succ h
  have hlast : ∃ i, CsiArgs.last { a with argc := a.argc + 1 } = some i := by
    apply last_of_le
    · change 0 < (a.argc + 1).toNat
      omega
    · change (a.argc + 1).toNat ≤ 4
      omega
  obtain ⟨i, hi⟩ := hlast
  refine ⟨CsiArgs.set { a with argc := a.argc + 1 } i v, ?_, ?_⟩
  · rw [CsiArgs.push]
    simp only [bind_eq_bind, hi, bind_some]
    rfl
  · change 0 < (a.argc + 1).toNat ∧ (a.argc + 1).toNat ≤ 4
    omega

/-- The states of a sequence that has not ended: with `IN_ARG` set or cleared, and with `EXTENSION` set. -/
theorem csi_states (hs : st ∈ states) (hc : st &&& ANSI_CSI ≠ 0) :
    st ||| ANSI_IN_ARG ∈ states ∧ st &&& ~~~ ANSI_IN_ARG ∈ states ∧ (st &&& ~~~ ANSI_IN_ARG) &&& ANSI_IN_ARG = 0 ∧
      (st &&& ANSI_IN_ARG = 0 → st ||| ANSI_EXTENSION ∈ states ∧ (st ||| ANSI_EXTENSION) &&& ANSI_IN_ARG = 0) :=
  of_states (P := fun st => st &&& ANSI_CSI ≠ 0 → st ||| ANSI_IN_ARG ∈ states ∧ st &&& ~~~ ANSI_IN_ARG ∈ states ∧
    (st &&& ~~~ ANSI_IN_ARG) &&& ANSI_IN_ARG = 0 ∧ (st &&& ANSI_IN_ARG = 0 → st ||| ANSI_EXTENSION ∈ states ∧
      (st ||| ANSI_EXTENSION) &&& ANSI_IN_ARG = 0)) (by decide) hs hc

theorem digit_ok (h : Ok st a) (hc : st &&& ANSI_CSI ≠ 0) (cp : UInt32) :
    ∃ p, digit st a cp = some p ∧ Ok p.state p.args := by
  have h4 := h.room hc
  rw [digit]
  by_cases hin : st &&& ANSI_IN_ARG = 0
  · rw [if_pos hin]
    by_cases hfull : 4 ≤ a.argc
    · rw [if_pos hfull]
      exact ⟨_, rfl, Ok.ignore⟩
    · obtain ⟨a', ha', hpos, hle⟩ := push_ok hfull (cp - '0'.val).toUInt16
      rw [if_neg hfull]
      simp only [bind_eq_bind, ha', bind_some]
      exact ⟨_, rfl, (csi_states h.state hc).1, fun _ => hle, fun _ => hpos⟩
  · obtain ⟨i, hi⟩ := last_of_le (h.started hin) h4
    simp only [bind_eq_bind, hi, bind_some]
    split_ifs
    · exact ⟨_, rfl, Ok.ignore⟩
    · exact ⟨_, rfl, h.state, h.room, h.started⟩

theorem semicolon_ok (h : Ok st a) (hc : st &&& ANSI_CSI ≠ 0) : ∃ p, semicolon st a = some p ∧ Ok p.state p.args := by
  obtain ⟨-, hmem, hout, -⟩ := csi_states h.state hc
  rw [semicolon]
  by_cases hin : st &&& ANSI_IN_ARG ≠ 0
  · rw [if_pos hin]
    exact ⟨_, rfl, hmem, fun _ => h.room hc, fun hf => absurd hout hf⟩
  · rw [if_neg hin]
    by_cases hfull : 4 ≤ a.argc
    · rw [if_pos hfull]
      exact ⟨_, rfl, Ok.ignore⟩
    · obtain ⟨a', ha', hpos, hle⟩ := push_ok hfull 0
      rw [if_neg hfull]
      simp only [bind_eq_bind, ha', bind_some]
      exact ⟨_, rfl, h.state, fun _ => hle, fun _ => hpos⟩

theorem ite_some {α : Type} {c : Prop} [Decidable c] {x y : Option α} (hx : ∃ e, x = some e) (hy : ∃ e, y = some e) :
    ∃ e, (if c then x else y) = some e := by
  split_ifs
  · exact hx
  · exact hy

theorem command_some (h4 : a.argc.toNat ≤ 4) (cp : UInt32) : ∃ e, command a cp = some e := by
  have hgiven : ∃ args, a.given = some args := ⟨_, if_pos h4⟩
  obtain ⟨args, hargs⟩ := hgiven
  rw [command, hargs]
  repeat' apply ite_some
  all_goals exact ⟨_, rfl⟩

theorem ansiCsi_ok (h : Ok st a) (hc : st &&& ANSI_CSI ≠ 0) (cp : UInt32) :
    ∃ p, ansiCsi st a cp = some p ∧ Ok p.state p.args := by
  have h4 := h.room hc
  rw [ansiCsi]
  split_ifs with hdigit hsemi hext hspace hcommand
  · exact digit_ok h hc cp
  · exact semicolon_ok h hc
  · obtain ⟨hmem, hout⟩ := (csi_states h.state hc).2.2.2 hext.2.1
    exact ⟨_, rfl, hmem, fun _ => h4, fun hf => absurd hout hf⟩
  · exact ⟨_, rfl, Ok.decscusr⟩
  · exact ⟨_, rfl, Ok.normal⟩
  · obtain ⟨e, he⟩ := command_some h4 cp
    simp only [bind_eq_bind, he, bind_some]
    exact ⟨_, rfl, Ok.normal⟩
  · exact ⟨_, rfl, Ok.ignore⟩

/-- There is no `abort()`. -/
theorem parse_ok (h : Ok st a) (vterm : Bool) (cp : UInt32) : ∃ p, parse vterm st a cp = some p ∧ Ok p.state p.args := by
  rw [parse]
  split_ifs with hv hn he hi hd hc hst
  · exact ⟨_, rfl, h⟩
  · exact ⟨_, rfl, ansiNormal_ok cp⟩
  · exact ⟨_, rfl, ansiEscapeSeen_ok cp⟩
  · exact ⟨_, rfl, ansiIgnore_ok cp⟩
  · exact ⟨_, rfl, ansiDecscusr_ok cp⟩
  · exact ansiCsi_ok h hc cp
  · exact ⟨_, rfl, ansiStControl_ok h.state hst cp⟩
  · have hnone := of_states (P := fun st => st ≠ ANSI_NORMAL → st ≠ ANSI_ESCAPE_SEEN → st ≠ ANSI_IGNORE →
      st ≠ ANSI_DECSCUSR → ¬ st &&& ANSI_CSI ≠ 0 → st &&& ANSI_ST_CONTROL ≠ 0) (by decide) h.state
    exact absurd (hnone hn he hi hd hc) hst

end

theorem decode_state (cc : Compiler) (s : Cache) (c : UInt8) : (decode cc s c).1.ansiParserState = s.ansiParserState := by
  rw [decode]
  split_ifs
  · split
    · split_ifs
      · rfl
      · rfl
      · rfl
    · rfl
  · rfl
  · rfl

theorem react_total (env : Env) {w : Wr} (h : w.Ok) (c : UInt8) : ∃ r, react env w c = some r ∧ r.wr.Ok := by
  have hd : Ok (decode env.cc w.cache c).1.ansiParserState w.args := by
    rw [decode_state]
    exact h
  rw [react]
  split_ifs
  · exact ⟨_, rfl, hd⟩
  · obtain ⟨p, hp, hok⟩ := parse_ok hd env.vterm (decode env.cc w.cache c).1.utf8Codepoint
    simp only [bind_eq_bind, hp, bind_some]
    cases p.esc with
    | skip | flush | control a => exact ⟨_, rfl, hok⟩
    | print =>
      refine ⟨_, rfl, ?_⟩
      rw [Wr.Ok]
      rw [(encode_keeps _).2]
      exact hok

theorem feed_total (env : Env) {w : Wr} (h : w.Ok) (c : UInt8) : ∃ x, feed env w c = some x ∧ x.1.Ok := by
  obtain ⟨r, hr, hok⟩ := react_total env h c
  rw [feed]
  simp only [bind_eq_bind, hr, bind_some]
  split_ifs
  · obtain ⟨r', hr', hok'⟩ := react_total env hok c
    rw [hr']
    exact ⟨_, rfl, hok'⟩
  · exact ⟨_, rfl, hok⟩

theorem feedAll_total (env : Env) {w : Wr} (h : w.Ok) (bs : List UInt8) : ∃ x, feedAll env w bs = some x ∧ x.1.Ok := by
  induction bs generalizing w with
  | nil => exact ⟨_, rfl, h⟩
  | cons c bs ih =>
    obtain ⟨x, hx, hok⟩ := feed_total env h c
    obtain ⟨y, hy, hok'⟩ := ih hok
    rw [feedAll]
    simp only [bind_eq_bind, hx, bind_some, hy]
    exact ⟨_, rfl, hok'⟩

theorem Reachable.ok {h : Wr} (hr : Reachable h) : h.Ok := by
  induction hr with
  | init args => exact Ok.normal
  | @write env h h' bufs t hr hw ih =>
    obtain ⟨x, hx, hok⟩ := feedAll_total env ih (bytesOf bufs)
    rw [write_feeds hx] at hw
    cases some.inj hw
    exact hok

/-! ### A console that fails -/

theorem react_fails (env : Env) (fails : ℕ → UInt32) : react { env with fails := fails } = react env := rfl

theorem feedAll_fails (env : Env) (fails : ℕ → UInt32) (w : Wr) (bs : List UInt8) :
    feedAll { env with fails := fails } w bs = feedAll env w bs := by
  induction bs generalizing w with
  | nil => rfl
  | cons c bs ih =>
    rw [feedAll, feedAll, feed, feed, react_fails]
    simp [ih]

theorem errors_keep_state (env : Env) (fails : ℕ → UInt32) {h : Wr} (hr : Reachable h) (bufs : List UvBuf) :
    ∃ h' t t', writeBufs env h bufs = some (h', t) ∧ writeBufs { env with fails := fails } h bufs = some (h', t') := by
  obtain ⟨x, hx, -⟩ := feedAll_total env hr.ok (bytesOf bufs)
  have hx' := hx
  rw [← feedAll_fails env fails] at hx'
  exact ⟨x.1, _, _, write_feeds hx, write_feeds hx'⟩

/-! ### Writes of whole characters -/

def Reaction.chars : Reaction → List Call
  | .nothing => []
  | .flush => []
  | .control a => [.control a]
  | .put us => if us = [] then [] else [.text us]

/-- What reaches the console are these characters, put together to writes that fit. -/
inductive Packs : List Call → List Call → Prop
  | nil : Packs [] []
  | text (ts : List (List UInt16)) {chars t : List Call} :
      ts.flatten.length ≤ MAX_CONSOLE_CHAR → Packs chars t → Packs (ts.map Call.text ++ chars) (.text ts.flatten :: t)
  | control (a : Action) {chars t : List Call} : Packs chars t → Packs (.control a :: chars) (.control a :: t)

theorem Packs.append {chars chars' t t' : List Call} (h : Packs chars t) (h' : Packs chars' t') :
    Packs (chars ++ chars') (t ++ t') := by
  induction h with
  | nil => exact h'
  | text ts hfit _ ih =>
    rw [List.append_assoc]
    exact .text ts hfit ih
  | control a _ ih => exact .control a ih

theorem Packs.fits {chars t : List Call} (h : Packs chars t) {us : List UInt16} (hus : Call.text us ∈ t) :
    us.length ≤ MAX_CONSOLE_CHAR := by
  induction h with
  | nil => cases hus
  | text ts hfit _ ih =>
    obtain heq | hmem := List.mem_cons.mp hus
    · cases heq
      exact hfit
    · exact ih hmem
  | control a _ ih =>
    obtain heq | hmem := List.mem_cons.mp hus
    · cases heq
    · exact ih hmem

theorem segments_texts (ts : List (List UInt16)) (t : List Call) :
    segments (ts.map Call.text ++ t) = (ts.flatten ++ (segments t).1, (segments t).2) := by
  induction ts with
  | nil => rfl
  | cons us ts ih =>
    rw [List.map_cons, List.cons_append, segments, ih, List.flatten_cons, List.append_assoc]

theorem Packs.segments_eq {chars t : List Call} (h : Packs chars t) : segments t = segments chars := by
  induction h with
  | nil => rfl
  | text ts _ _ ih => rw [segments, segments_texts, ih]
  | control a _ ih => rw [segments, segments, ih]

theorem Packs.getLast {chars t : List Call} (h : Packs chars t) {us : List UInt16} {u : UInt16} (hus : Call.text us ∈ t)
    (hu : us.getLast? = some u) : ∃ us', Call.text us' ∈ chars ∧ us'.getLast? = some u := by
  induction h with
  | nil => cases hus
  | text ts _ _ ih =>
    obtain heq | hmem := List.mem_cons.mp hus
    · cases heq
      rw [List.getLast?_flatten] at hu
      obtain ⟨us', hmem, hlast⟩ := List.exists_of_findSome?_eq_some hu
      exact ⟨us', List.mem_append_left _ (List.mem_map.mpr ⟨us', List.mem_reverse.mp hmem, rfl⟩), hlast⟩
    · obtain ⟨us', hchar, hlast⟩ := ih hmem
      exact ⟨us', List.mem_append_right _ hchar, hlast⟩
  | control a _ ih =>
    obtain heq | hmem := List.mem_cons.mp hus
    · cases heq
    · obtain ⟨us', hchar, hlast⟩ := ih hmem
      exact ⟨us', List.mem_cons_of_mem _ hchar, hlast⟩

structure Out.Packed (chars : List Call) (o : Out) : Prop where
  error : o.error = 0
  fits : o.units.length ≤ MAX_CONSOLE_CHAR
  packs : ∃ (done : List Call) (ts : List (List UInt16)), chars = done ++ ts.map Call.text ∧ Packs done o.calls ∧
    ts.flatten = o.units ∧ ∀ us ∈ ts, us ≠ []

theorem Out.Packed.empty : Out.Packed [] Out.empty :=
  ⟨rfl, Nat.zero_le _, [], [], rfl, .nil, rfl, fun us hus => by cases hus⟩

section
variable {env : Env} {chars : List Call} {o : Out}

theorem Out.attempt_succeeds (henv : ∀ n, env.fails n = 0) (o : Out) (c : Call) :
    o.attempt env c = { o with calls := o.calls ++ [c], count := o.count + 1 } := by
  rw [attempt, if_pos (henv _)]

theorem Out.Packed.flushText (henv : ∀ n, env.fails n = 0) (ho : Out.Packed chars o) :
    Out.Packed chars (o.flushText env) ∧ (o.flushText env).units = [] := by
  obtain ⟨done, ts, hchars, hdone, hts, hne⟩ := ho.packs
  rw [Out.flushText]
  by_cases hunits : o.units.length > 0
  · rw [if_pos hunits, emitText, if_neg fun herr => herr ho.error, attempt_succeeds henv]
    have hpacks : Packs chars (o.calls ++ [.text o.units]) := by
      have hlast := Packs.text ts (hts ▸ ho.fits) .nil
      rw [hts, List.append_nil] at hlast
      rw [hchars]
      exact hdone.append hlast
    refine ⟨⟨ho.error, Nat.zero_le _, chars, [], ?_, hpacks, rfl, fun us hus => by cases hus⟩, rfl⟩
    rw [List.map_nil, List.append_nil]
  · rw [if_neg hunits]
    exact ⟨ho, List.length_eq_zero_iff.mp (Nat.eq_zero_of_not_pos hunits)⟩

theorem Out.Packed.written (ho : Out.Packed chars o) (hu : o.units = []) : Packs chars o.calls := by
  obtain ⟨done, ts, hchars, hdone, hts, hne⟩ := ho.packs
  have hnil : ts = [] := by
    cases ts with
    | nil => rfl
    | cons us ts =>
      rw [hu] at hts
      exact absurd (List.append_eq_nil_iff.mp hts).1 (hne us List.mem_cons_self)
  rw [hchars, hnil, List.map_nil, List.append_nil]
  exact hdone

theorem Out.Packed.act (henv : ∀ n, env.fails n = 0) (ho : Out.Packed chars o) (hu : o.units = []) (a : Action) :
    Out.Packed (chars ++ [.control a]) (o.act env a) := by
  rw [Out.act, if_neg fun hand => hand.2 ho.error, attempt_succeeds henv]
  have hpacks := (ho.written hu).append (.control a .nil)
  refine ⟨ho.error, ho.fits, chars ++ [.control a], [], ?_, hpacks, ?_, fun us hus => by cases hus⟩
  · rw [List.map_nil, List.append_nil]
  · exact hu.symm

theorem Out.Packed.ensureBufferSpace (henv : ∀ n, env.fails n = 0) (ho : Out.Packed chars o) {n : ℕ}
    (hn : n ≤ MAX_CONSOLE_CHAR) : Out.Packed chars (o.ensureBufferSpace env n) ∧
      (o.ensureBufferSpace env n).units.length + n ≤ MAX_CONSOLE_CHAR := by
  rw [Out.ensureBufferSpace]
  split_ifs with hroom
  · obtain ⟨hflush, hu⟩ := ho.flushText henv
    rw [hu, List.length_nil]
    exact ⟨hflush, by omega⟩
  · have hfits := ho.fits
    exact ⟨ho, by omega⟩

theorem Out.Packed.put (ho : Out.Packed chars o) {us : List UInt16} (hroom : o.units.length + us.length ≤ MAX_CONSOLE_CHAR) :
    Out.Packed (chars ++ (Reaction.put us).chars) { o with units := o.units ++ us } := by
  obtain ⟨done, ts, hchars, hdone, hts, hne⟩ := ho.packs
  rw [Reaction.chars]
  split_ifs with hus
  · rw [hus, List.append_nil, List.append_nil]
    exact ho
  · refine ⟨ho.error, ?_, done, ts ++ [us], ?_, hdone, ?_, ?_⟩
    · rw [List.length_append]
      exact hroom
    · rw [hchars, List.map_append, List.append_assoc]
      rfl
    · rw [List.flatten_append, hts, List.flatten_singleton]
    · intro us' hmem
      obtain hmem | hmem := List.mem_append.mp hmem
      · exact hne us' hmem
      · rw [List.mem_singleton.mp hmem]
        exact hus

def Reaction.Small (r : Reaction) : Prop := ∀ us, r = .put us → us.length ≤ 2

theorem Out.Packed.apply (henv : ∀ n, env.fails n = 0) (ho : Out.Packed chars o) {r : Reaction} (hr : r.Small) :
    Out.Packed (chars ++ r.chars) (o.apply env r) := by
  cases r with
  | nothing =>
    rw [Reaction.chars, List.append_nil]
    exact ho
  | flush =>
    rw [Reaction.chars, List.append_nil]
    exact (ho.flushText henv).1
  | control a =>
    obtain ⟨hflush, hu⟩ := ho.flushText henv
    exact hflush.act henv hu a
  | put us =>
    have hn : us.length ≤ MAX_CONSOLE_CHAR := Nat.le_trans (hr us rfl) (by decide)
    obtain ⟨hensure, hroom⟩ := ho.ensureBufferSpace henv hn
    exact hensure.put hroom

theorem Out.Packed.foldl (henv : ∀ n, env.fails n = 0) {rs : List Reaction} (ho : Out.Packed chars o)
    (hrs : ∀ r ∈ rs, r.Small) : Out.Packed (chars ++ rs.flatMap Reaction.chars) (rs.foldl (Out.apply env) o) := by
  induction rs generalizing chars o with
  | nil =>
    rw [List.flatMap_nil, List.append_nil]
    exact ho
  | cons r rs ih =>
    rw [List.flatMap_cons, ← List.append_assoc]
    apply ih (ho.apply henv (hrs r List.mem_cons_self))
    intro r' hr'
    exact hrs r' (List.mem_cons_of_mem _ hr')

end

/-! ### Surrogates -/

def High (u : UInt16) : Prop := 0xD800 ≤ u ∧ u ≤ 0xDBFF

def Low (u : UInt16) : Prop := 0xDC00 ≤ u ∧ u ≤ 0xDFFF

/-- A write ends in the first half of a surrogate pair, and the next one begins with the second. -/
def SplitsPair (t : List Call) : Prop :=
  ∃ pre us us' post hi lo, t = pre ++ .text us :: .text us' :: post ∧ us.getLast? = some hi ∧ us'.head? = some lo ∧
    High hi ∧ Low lo

/-- What a byte puts out: a unit or two, and a high surrogate at the end only if it is all. -/
structure Reaction.Proper (r : Reaction) : Prop where
  small : r.Small
  last : ∀ us hi, r = .put us → us.getLast? = some hi → High hi → us = [hi]

theorem Reaction.Proper.of_ne {r : Reaction} (h : ∀ us, r ≠ .put us) : r.Proper :=
  ⟨fun us hr => absurd hr (h us), fun us _ hr => absurd hr (h us)⟩

theorem low_of_mod (cp : UInt32) : Low (cp % 0x400 + 0xDC00).toUInt16 := by
  have hmod : (cp % 0x400 + 0xDC00).toUInt16.toNat = cp.toNat % 0x400 + 0xDC00 := by
    rw [UInt32.toNat_toUInt16, UInt32.toNat_add]
    change (cp.toNat % 0x400 + 0xDC00) % 2 ^ 32 % 2 ^ 16 = _
    omega
  constructor
  · rw [UInt16.le_iff_toNat_le, hmod]
    exact Nat.le_add_left _ _
  · rw [UInt16.le_iff_toNat_le]
    change _ ≤ 0xDFFF
    omega

theorem Reaction.Proper.single (u : UInt16) : (Reaction.put [u]).Proper := by
  refine ⟨?_, ?_⟩
  · intro us hus
    cases hus
    exact Nat.le_succ 1
  · intro us hi hus hlast _
    cases hus
    have hu : u = hi := some.inj hlast
    rw [hu]

theorem Reaction.Proper.pair (u : UInt16) {v : UInt16} (hv : ¬ High v) : (Reaction.put [u, v]).Proper := by
  refine ⟨?_, ?_⟩
  · intro us hus
    cases hus
    exact Nat.le_refl 2
  · intro us hi hus hlast hhi
    cases hus
    rw [← some.inj hlast] at hhi
    exact absurd hhi hv

theorem Reaction.Proper.nil : (Reaction.put []).Proper := by
  refine ⟨?_, ?_⟩
  · intro us hus
    cases hus
    exact Nat.zero_le 2
  · intro us hi hus hlast _
    cases hus
    cases hlast

theorem encode_proper (s : Cache) : (Reaction.put (encode s).1).Proper := by
  rw [encode]
  by_cases heol : s.utf8Codepoint = 0x0a ∨ s.utf8Codepoint = 0x0d
  · split_ifs
    · exact .pair _ fun hf => absurd hf.1 (by decide)
    · exact .nil
    · exact .single _
  · split_ifs
    · exact .single _
    · apply Reaction.Proper.pair
      intro hf
      have hlow := UInt16.le_iff_toNat_le.mp (low_of_mod (s.utf8Codepoint - 0x10000)).1
      have hhigh := UInt16.le_iff_toNat_le.mp hf.2
      exact absurd (Nat.le_trans hlow hhigh) (by decide)

theorem react_proper {env : Env} {w : Wr} {c : UInt8} {r : Round} (h : react env w c = some r) : r.reaction.Proper := by
  obtain hno | ⟨s, hs⟩ := (react_spec h).reaction
  · exact .of_ne hno
  · rw [hs]
    exact encode_proper s

theorem feed_proper {env : Env} {w : Wr} {c : UInt8} {x : Wr × List Reaction} (h : feed env w c = some x) :
    ∀ r ∈ x.2, r.Proper := by
  simp only [feed, bind_eq_bind, bind_eq_some_iff] at h
  obtain ⟨r, hr, h⟩ := h
  split_ifs at h
  · obtain ⟨r', hr', h⟩ := bind_eq_some_iff.mp h
    cases some.inj h
    intro q hq
    obtain rfl | hq := List.mem_cons.mp hq
    · exact react_proper hr
    · rw [List.mem_singleton.mp hq]
      exact react_proper hr'
  · cases some.inj h
    intro q hq
    rw [List.mem_singleton.mp hq]
    exact react_proper hr

theorem feedAll_proper {env : Env} {w : Wr} {bs : List UInt8} {x : Wr × List Reaction} (h : feedAll env w bs = some x) :
    ∀ r ∈ x.2, r.Proper := by
  induction bs generalizing w x with
  | nil =>
    cases some.inj h
    intro r hr
    cases hr
  | cons c bs ih =>
    simp only [feedAll, bind_eq_bind, bind_eq_some_iff] at h
    obtain ⟨y, hy, z, hz, h⟩ := h
    cases some.inj h
    intro r hr
    obtain hr | hr := List.mem_append.mp hr
    · exact feed_proper hy r hr
    · exact ih hz r hr

theorem Packs.no_split {rs : List Reaction} {t : List Call} (h : Packs (rs.flatMap Reaction.chars) t) (hrs : ∀ r ∈ rs, r.Proper)
    (hno : ∀ hi, High hi → Reaction.put [hi] ∉ rs) : ¬ SplitsPair t := by
  intro hsplit
  obtain ⟨pre, us, us', post, hi, lo, ht, hlast, -, hhigh, -⟩ := hsplit
  have hmem : Call.text us ∈ t := by
    rw [ht]
    exact List.mem_append_right _ List.mem_cons_self
  obtain ⟨us'', hchar, hlast'⟩ := h.getLast hmem hlast
  obtain ⟨r, hr, hput⟩ := List.mem_flatMap.mp hchar
  cases r with
  | nothing | flush => cases hput
  | control a => cases List.mem_singleton.mp hput
  | put vs =>
    rw [Reaction.chars] at hput
    split_ifs at hput
    · cases hput
    · cases List.mem_singleton.mp hput
      rw [(hrs _ hr).last us'' hi rfl hlast' hhigh] at hr
      exact hno hi hhigh hr

/-! ## The output -/

theorem write_packs {env : Env} (henv : ∀ n, env.fails n = 0) {h : Wr} {bufs : List UvBuf} {x : Wr × List Reaction}
    (hx : feedAll env h (bytesOf bufs) = some x) :
    ∃ t, writeBufs env h bufs = some (x.1, t) ∧ Packs (x.2.flatMap Reaction.chars) t := by
  have hloop := Out.Packed.empty.foldl henv fun r hr => (feedAll_proper hx r hr).small
  obtain ⟨hflush, hu⟩ := hloop.flushText henv
  exact ⟨_, write_feeds hx, hflush.written hu⟩

theorem run_packs {env : Env} (henv : ∀ n, env.fails n = 0) {calls : List (List UvBuf)} {h : Wr} {x : Wr × List Reaction}
    (hx : feedAll env h (bytes calls) = some x) :
    ∃ t, run env h calls = some (x.1, t) ∧ Packs (x.2.flatMap Reaction.chars) t := by
  induction calls generalizing h x with
  | nil =>
    cases some.inj hx
    exact ⟨[], rfl, .nil⟩
  | cons bufs calls ih =>
    obtain ⟨y, z, hy, hz, hw, hrs⟩ := feedAll_append_some hx
    obtain ⟨t, ht, hpacks⟩ := write_packs henv hy
    obtain ⟨t', ht', hpacks'⟩ := ih hz
    refine ⟨t ++ t', ?_, ?_⟩
    · rw [run]
      simp only [bind_eq_bind, ht, bind_some, ht', hw]
      rfl
    · rw [← hrs, List.flatMap_append]
      exact hpacks.append hpacks'

/-- The same bytes, cut in two ways: the same text between the same actions. The characters that the bytes make reach the
console as wholes, the two units of a code point above U+FFFF among them; a surrogate pair is split only if its first half
is a character of its own. -/
theorem write_split (env : Env) (henv : ∀ n, env.fails n = 0) {h : Wr} (hr : Reachable h) (calls calls' : List (List UvBuf))
    (hbytes : bytes calls = bytes calls') :
    ∃ h' t t' rs, run env h calls = some (h', t) ∧ run env h calls' = some (h', t') ∧ segments t = segments t' ∧
      (∀ us, Call.text us ∈ t ∨ Call.text us ∈ t' → us.length ≤ MAX_CONSOLE_CHAR) ∧
      feedAll env h (bytes calls) = some (h', rs) ∧
      Packs (rs.flatMap Reaction.chars) t ∧ Packs (rs.flatMap Reaction.chars) t' ∧
      ((∀ hi, High hi → Reaction.put [hi] ∉ rs) → ¬ SplitsPair t ∧ ¬ SplitsPair t') := by
  obtain ⟨⟨h', rs⟩, hx, -⟩ := feedAll_total env hr.ok (bytes calls)
  have hx' := hx
  rw [hbytes] at hx'
  obtain ⟨t, ht, hpacks⟩ := run_packs henv hx
  obtain ⟨t', ht', hpacks'⟩ := run_packs henv hx'
  have hrs := feedAll_proper hx
  refine ⟨h', t, t', rs, ht, ht', ?_, ?_, hx, hpacks, hpacks', ?_⟩
  · rw [hpacks.segments_eq, hpacks'.segments_eq]
  · intro us hus
    obtain hus | hus := hus
    · exact hpacks.fits hus
    · exact hpacks'.fits hus
  · intro hno
    exact ⟨hpacks.no_split hrs hno, hpacks'.no_split hrs hno⟩

/-- A console of an older Windows, where no call fails. -/
def plainEnv : Env := ⟨.msc, false, fun _ => 0⟩

def newTty : Wr := Wr.init ⟨0, #v[0, 0, 0, 0]⟩

/-- A letter, a colour and a face, at once and in three calls. -/
def atOnce : List (List UvBuf) := [[⟨[0x41, 0x1b, 0x5b, 0x33, 0x31, 0x6d, 0xf0, 0x9f, 0x98, 0x80], by decide⟩]]

def inParts : List (List UvBuf) :=
  [[⟨[0x41, 0x1b], by decide⟩, ⟨[0x5b, 0x33], by decide⟩], [⟨[0x31, 0x6d, 0xf0, 0x9f], by decide⟩], [⟨[0x98, 0x80], by decide⟩]]

theorem write_split_parts :
    ∃ h' t t', run plainEnv newTty atOnce = some (h', t) ∧ run plainEnv newTty inParts = some (h', t') ∧
      segments t = segments t' := by
  obtain ⟨h', t, t', rs, ht, ht', hseg, -⟩ :=
    write_split plainEnv (fun _ => rfl) (.init ⟨0, #v[0, 0, 0, 0]⟩) atOnce inParts (by decide)
  exact ⟨h', t, t', ht, ht', hseg⟩

theorem errors_keep_state_fails : ∃ h' t t', writeBufs plainEnv newTty [⟨[0x41, 0x1b], by decide⟩] = some (h', t) ∧
    writeBufs { plainEnv with fails := fun _ => 6 } newTty [⟨[0x41, 0x1b], by decide⟩] = some (h', t') :=
  errors_keep_state plainEnv _ (.init ⟨0, #v[0, 0, 0, 0]⟩) _

/-- U+D800 and U+DC00, encoded as if they were characters, in two calls. -/
def halves : List (List UvBuf) := [[⟨[0xed, 0xa0, 0x80], by decide⟩], [⟨[0xed, 0xb0, 0x80], by decide⟩]]

theorem pair_split :
    ¬ ∀ (env : Env) (h : Wr) (calls : List (List UvBuf)), (∀ n, env.fails n = 0) → Reachable h →
      ∃ h' t, run env h calls = some (h', t) ∧ ¬ SplitsPair t := by
  intro hall
  obtain ⟨h', t, ht, hno⟩ := hall plainEnv newTty halves (fun _ => rfl) (.init _)
  have hrun : run plainEnv newTty halves =
      some (⟨⟨0, 0xdc00, 0, ANSI_NORMAL⟩, newTty.args⟩, [.text [0xd800], .text [0xdc00]]) := by decide
  cases some.inj ht
  apply hno
  refine ⟨[], [0xd800], [0xdc00], [], 0xd800, 0xdc00, rfl, rfl, rfl, ?_, ?_⟩
  · exact ⟨by decide, by decide⟩
  · exact ⟨by decide, by decide⟩

end Libuv.L5.TtyWrite
