import Libuv.Core.LTS
import Libuv.L1Data.WideChar

/-!
# Raw console input (`win/tty.c`)

`uv_process_tty_read_raw_req` turns the records of the console into bytes. The bytes of a key are in the handle
(`last_key`), with how many of them have been copied and how often the key is still to be repeated, so that reading can be
stopped in the middle of it. A buffer is allocated when there is a byte to copy, and emitted when it is full.

The functions are cut where they call `alloc_cb` or `read_cb`; in `read_cb` the owner may stop reading and start it again.
Which records there are, how long buffers are and which calls fail is in the labels; when the wait for the console ends is
left open. `records` and `delivered` are what has been read and emitted. The handle is in raw mode, and not closed.
`WideCharToMultiByte` does not fail.

* `typed`: the bytes that records stand for.
* `Inv`: these are what has been delivered, what is in the buffer, and what is left of the key.
* `raw_delivers`: no byte is lost or made up, unless a key that comes 0 times is finished, or `ReadConsoleInputW` fails
  while there is something in the buffer.
* `raw_zero`, `raw_fails`: what happens then.
-/
namespace Libuv.L5.TtyRaw

open L1.WideChar List
open L1.Idna (encode encode_ne_nil)
open L1.ProgramArgs (WCHAR)

def VK_CLEAR : UInt16 := 0x0C
def VK_MENU : UInt16 := 0x12
def VK_PRIOR : UInt16 := 0x21
def VK_NEXT : UInt16 := 0x22
def VK_END : UInt16 := 0x23
def VK_HOME : UInt16 := 0x24
def VK_LEFT : UInt16 := 0x25
def VK_UP : UInt16 := 0x26
def VK_RIGHT : UInt16 := 0x27
def VK_DOWN : UInt16 := 0x28
def VK_INSERT : UInt16 := 0x2D
def VK_DELETE : UInt16 := 0x2E
/-- The digits of the keypad are numbered from `VK_NUMPAD0` on, and the function keys from `VK_F1` on. -/
def VK_NUMPAD0 : UInt16 := 0x60
def VK_DECIMAL : UInt16 := 0x6E
def VK_F1 : UInt16 := 0x70

/-- `KEY_EVENT_RECORD`; the bits of `dwControlKeyState` that are looked at are fields. -/
structure KeyEvent where
  keyDown : Bool
  repeatCount : ℕ
  repeatCount_lt : repeatCount < 2 ^ 16
  virtualKeyCode : UInt16
  unicodeChar : WCHAR
  leftAlt : Bool
  rightAlt : Bool
  ctrl : Bool
  shift : Bool
  enhanced : Bool

/-- `INPUT_RECORD` -/
inductive Record
  | key (k : KeyEvent)
  | windowBufferSize
  | other

/-! ## Keys -/

def esc : UInt8 := 0x1B

/-- The code, and the sequences without and with the modifiers.
mirrors win/tty.c:653-687 -/
def vkCases : List (UInt16 × String × String × String × String) :=
  [(VK_INSERT, "[2~", "[2;2~", "[2;5~", "[2;6~"),
   (VK_END, "[4~", "[4;2~", "[4;5~", "[4;6~"),
   (VK_DOWN, "[B", "[1;2B", "[1;5B", "[1;6B"),
   (VK_NEXT, "[6~", "[6;2~", "[6;5~", "[6;6~"),
   (VK_LEFT, "[D", "[1;2D", "[1;5D", "[1;6D"),
   (VK_CLEAR, "[G", "[1;2G", "[1;5G", "[1;6G"),
   (VK_RIGHT, "[C", "[1;2C", "[1;5C", "[1;6C"),
   (VK_UP, "[A", "[1;2A", "[1;5A", "[1;6A"),
   (VK_HOME, "[1~", "[1;2~", "[1;5~", "[1;6~"),
   (VK_PRIOR, "[5~", "[5;2~", "[5;5~", "[5;6~"),
   (VK_DELETE, "[3~", "[3;2~", "[3;5~", "[3;6~"),
   (VK_NUMPAD0, "[2~", "[2;2~", "[2;5~", "[2;6~"),
   (VK_NUMPAD0 + 1, "[4~", "[4;2~", "[4;5~", "[4;6~"),
   (VK_NUMPAD0 + 2, "[B", "[1;2B", "[1;5B", "[1;6B"),
   (VK_NUMPAD0 + 3, "[6~", "[6;2~", "[6;5~", "[6;6~"),
   (VK_NUMPAD0 + 4, "[D", "[1;2D", "[1;5D", "[1;6D"),
   (VK_NUMPAD0 + 5, "[G", "[1;2G", "[1;5G", "[1;6G"),
   (VK_NUMPAD0 + 6, "[C", "[1;2C", "[1;5C", "[1;6C"),
   (VK_NUMPAD0 + 7, "[A", "[1;2A", "[1;5A", "[1;6A"),
   (VK_NUMPAD0 + 8, "[1~", "[1;2~", "[1;5~", "[1;6~"),
   (VK_NUMPAD0 + 9, "[5~", "[5;2~", "[5;5~", "[5;6~"),
   (VK_DECIMAL, "[3~", "[3;2~", "[3;5~", "[3;6~"),
   (VK_F1, "[[A", "[23~", "[11^", "[23^"),
   (VK_F1 + 1, "[[B", "[24~", "[12^", "[24^"),
   (VK_F1 + 2, "[[C", "[25~", "[13^", "[25^"),
   (VK_F1 + 3, "[[D", "[26~", "[14^", "[26^"),
   (VK_F1 + 4, "[[E", "[28~", "[15^", "[28^"),
   (VK_F1 + 5, "[17~", "[29~", "[17^", "[29^"),
   (VK_F1 + 6, "[18~", "[31~", "[18^", "[31^"),
   (VK_F1 + 7, "[19~", "[32~", "[19^", "[32^"),
   (VK_F1 + 8, "[20~", "[33~", "[20^", "[33^"),
   (VK_F1 + 9, "[21~", "[34~", "[21^", "[34^"),
   (VK_F1 + 10, "[23~", "[23$", "[23^", "[23@"),
   (VK_F1 + 11, "[24~", "[24$", "[24^", "[24@")]

/-- mirrors win/tty.c:632-694 -/
def getVt100FnKey (code : UInt16) (shift ctrl : Bool) : Option (List UInt8) :=
  (vkCases.find? fun row => row.1 == code).map fun (_, normal, shifted, ctrled, both) =>
    let str := if shift && ctrl then both else if shift then shifted else if ctrl then ctrled else normal
    esc :: str.toList.map fun c => c.toNat.toUInt8

namespace KeyEvent
variable (k : KeyEvent)

def alt : Bool := k.leftAlt || k.rightAlt

/-- The keys that compose a character while the left alt key is held.
mirrors win/tty.c:780-799 -/
def composing : Bool :=
  k.virtualKeyCode ∈ [VK_INSERT, VK_END, VK_DOWN, VK_NEXT, VK_LEFT, VK_CLEAR, VK_RIGHT, VK_HOME, VK_UP, VK_PRIOR] ∨
    VK_NUMPAD0 ≤ k.virtualKeyCode ∧ k.virtualKeyCode ≤ VK_NUMPAD0 + 9

/-- mirrors win/tty.c:768-803 -/
def ignored : Bool :=
  (!k.keyDown && (k.virtualKeyCode != VK_MENU || k.unicodeChar == 0)) || (k.leftAlt && !k.enhanced && k.composing)

/-- The bytes of a character, which a high surrogate may precede.
mirrors win/tty.c:816-854 -/
def charBytes (hi : WCHAR) : List UInt8 :=
  (if k.alt && !k.ctrl && k.keyDown then [esc] else []) ++
    if IsLow k.unicodeChar then utf8 [hi, k.unicodeChar] else utf8 [k.unicodeChar]

/-- mirrors win/tty.c:875-899 -/
def vt100Bytes : Option (List UInt8) :=
  (getVt100FnKey k.virtualKeyCode k.shift k.ctrl).map ((if k.alt then [esc] else []) ++ ·)

/-- What becomes of `last_utf16_high_surrogate`, and the bytes if there are any.
mirrors win/tty.c:805-903 -/
def accept (hi : WCHAR) : WCHAR × Option (List UInt8) :=
  if k.ignored then (hi, none)
  else if k.unicodeChar ≠ 0 then
    if IsHigh k.unicodeChar then (k.unicodeChar, none) else (0, some (k.charBytes hi))
  else (hi, k.vt100Bytes)

end KeyEvent

/-- `n` times. -/
def copies (n : ℕ) (key : List UInt8) : List UInt8 := (List.replicate n key).flatten

/-- A record after others: the high surrogate that it may complete, and all bytes. -/
def press (t : WCHAR × List UInt8) : Record → WCHAR × List UInt8
  | .key k => ((k.accept t.1).1, t.2 ++ ((k.accept t.1).2.map (copies (max 1 k.repeatCount))).getD [])
  | _ => t

def typed (records : List Record) : WCHAR × List UInt8 := records.foldl press (0, [])

/-! ## The handle -/

/-- `tty.rd`: `lastKey` are `last_key_len` bytes, `repeatCount` is that of the last record. -/
structure Tty where
  reading : Bool
  readPending : Bool
  lastKey : List UInt8
  lastKeyOffset : ℕ
  lastUtf16HighSurrogate : WCHAR
  repeatCount : ℕ

/-- A record, when no key is left.
mirrors win/tty.c:755-903 -/
def Tty.record (t : Tty) : Record → Tty
  | .key k =>
    let hi := t.lastUtf16HighSurrogate
    let t := { t with lastUtf16HighSurrogate := (k.accept hi).1, repeatCount := k.repeatCount }
    match (k.accept hi).2 with
    | none => t
    | some key => { t with lastKey := key, lastKeyOffset := 0 }
  | _ => t

/-- A `WORD` is decremented.
mirrors win/tty.c:930-937 -/
def Tty.repeat_ (t : Tty) : Tty :=
  let n := (t.repeatCount + (2 ^ 16 - 1)) % 2 ^ 16
  if 0 < n then { t with repeatCount := n, lastKeyOffset := 0 } else { t with repeatCount := n, lastKey := [] }

/-- `buf`: its length, and the `buf_used` bytes in it. -/
structure Buf where
  len : ℕ
  bytes : List UInt8

inductive Pc
  | idle
  /-- a round begins, with `records_left` -/
  | loop (left : ℕ) (buf : Buf)
  | alloc (left : ℕ)
  /-- `read_cb` runs, and then the loop goes on -/
  | readCb (left : ℕ)
  /-- `read_cb` runs for the last time -/
  | lastCb

structure State where
  tty : Tty
  pc : Pc
  records : List Record
  delivered : List UInt8

/-- What the wait for the console ends with: an error; `GetNumberOfConsoleInputEvents` fails; so many records. -/
inductive Result
  | error
  | console
  | records (n : ℕ)

inductive Label
  | start
  | stop
  | process (r : Result)
  | record (r : Record)
  | recordFails
  | copy
  | repeat_
  | allocated (len : ℕ)
  | finish
  | ret

def nullBuf : Buf := ⟨0, []⟩

namespace State
variable (s : State)

def Calls : Prop := s.pc = .idle ∨ (∃ left, s.pc = .readCb left) ∨ s.pc = .lastCb

/-- A request is with the console, or short-circuited into the ring.
mirrors win/tty.c:1018-1051 -/
def readStart : State := { s with tty := { s.tty with reading := true, readPending := true } }

/-- The event that makes the wait return, if there is one, is a record as others are.
mirrors win/tty.c:1054-1082 -/
def readStop : State := { s with tty := { s.tty with reading := false } }

/-- mirrors win/tty.c:946-951 -/
def out : State := { s with tty := { s.tty with readPending := s.tty.readPending || s.tty.reading }, pc := .idle }

/-- mirrors win/tty.c:706-739 -/
def process (r : Result) : State :=
  let s : State := { s with tty := { s.tty with readPending := false } }
  if s.tty.reading = false then s.out
  else
    match r with
    | .records n => { s with pc := .loop n nullBuf }
    | _ => { s.readStop with pc := .lastCb }

def record (left : ℕ) (buf : Buf) (r : Record) : State :=
  { s with tty := s.tty.record r, pc := .loop left buf, records := s.records ++ [r] }

/-- mirrors win/tty.c:918-925 -/
def put (left : ℕ) (buf : Buf) : State :=
  let bytes := buf.bytes ++ (s.tty.lastKey.drop s.tty.lastKeyOffset).take 1
  let s : State := { s with tty := { s.tty with lastKeyOffset := s.tty.lastKeyOffset + 1 } }
  if bytes.length = buf.len then { s with pc := .readCb left, delivered := s.delivered ++ bytes }
  else { s with pc := .loop left ⟨buf.len, bytes⟩ }

/-- mirrors win/tty.c:906-918 -/
def copy (left : ℕ) (buf : Buf) : State := if buf.bytes = [] then { s with pc := .alloc left } else s.put left buf

/-- mirrors win/tty.c:911-917 -/
def allocated (left len : ℕ) : State := if len = 0 then { s with pc := .lastCb } else s.put left ⟨len, []⟩

/-- mirrors win/tty.c:941-944 -/
def finish (buf : Buf) : State :=
  if buf.bytes = [] then s.out else { s with pc := .lastCb, delivered := s.delivered ++ buf.bytes }

end State

/-- The condition of the loop.
mirrors win/tty.c:741-742 -/
def Goes (s : State) (left : ℕ) : Prop := (0 < left ∨ s.tty.lastKey ≠ []) ∧ s.tty.reading = true

inductive Step : State → Label → State → Prop
  | start {s : State} (hu : s.Calls) (hr : s.tty.reading = false) : Step s .start s.readStart
  | stop {s : State} (hu : s.Calls) (hr : s.tty.reading = true) : Step s .stop s.readStop
  | process {s : State} (hpc : s.pc = .idle) (hp : s.tty.readPending = true) (r : Result) : Step s (.process r) (s.process r)
  | record {s : State} {left : ℕ} {buf : Buf} (hpc : s.pc = .loop (left + 1) buf) (hr : s.tty.reading = true)
      (hk : s.tty.lastKey = []) (r : Record) : Step s (.record r) (s.record left buf r)
  | recordFails {s : State} {left : ℕ} {buf : Buf} (hpc : s.pc = .loop (left + 1) buf) (hr : s.tty.reading = true)
      (hk : s.tty.lastKey = []) : Step s .recordFails { s.readStop with pc := .lastCb }
  | copy {s : State} {left : ℕ} {buf : Buf} (hpc : s.pc = .loop left buf) (hr : s.tty.reading = true)
      (hlt : s.tty.lastKeyOffset < s.tty.lastKey.length) : Step s .copy (s.copy left buf)
  | repeat_ {s : State} {left : ℕ} {buf : Buf} (hpc : s.pc = .loop left buf) (hr : s.tty.reading = true)
      (hk : s.tty.lastKey ≠ []) (hle : s.tty.lastKey.length ≤ s.tty.lastKeyOffset) : Step s .repeat_ { s with tty := s.tty.repeat_ }
  | allocated {s : State} {left : ℕ} (hpc : s.pc = .alloc left) (len : ℕ) : Step s (.allocated len) (s.allocated left len)
  | finish {s : State} {left : ℕ} {buf : Buf} (hpc : s.pc = .loop left buf) (hend : ¬ Goes s left) :
      Step s .finish (s.finish buf)
  | ret {s : State} {left : ℕ} (hpc : s.pc = .readCb left) : Step s .ret { s with pc := .loop left nullBuf }
  | lastRet {s : State} (hpc : s.pc = .lastCb) : Step s .ret s.out

def Tty.fresh : Tty := ⟨false, false, [], 0, 0, 0⟩

def sys : LTS State Label where
  init s := s = ⟨.fresh, .idle, [], []⟩
  step := Step

/-! ## What is meant -/

def Tty.remaining (t : Tty) : List UInt8 := t.lastKey.drop t.lastKeyOffset ++ copies (max 1 t.repeatCount - 1) t.lastKey

def State.collected (s : State) : List UInt8 :=
  match s.pc with
  | .loop _ buf => buf.bytes
  | _ => []

/-- The bytes that have been delivered are the first of those that have been typed. When the loop has ended, or `read_cb`
runs, the others are of a key that is still in the handle. -/
structure Delivers (s : State) : Prop where
  order : s.delivered <+: (typed s.records).2
  all : (∀ left buf, s.pc ≠ .loop left buf) → s.delivered ++ s.tty.remaining = (typed s.records).2

/-- A key that is finished has a count. A call that fails finds nothing in the buffer. -/
def Proper (s : State) : Label → Prop
  | .repeat_ => s.tty.repeatCount ≠ 0
  | .recordFails => s.collected = []
  | _ => True

/-! ## The bytes of a key -/

section
variable {k : KeyEvent} {hi : WCHAR} {key : List UInt8} {n : ℕ}

theorem copies_succ (n : ℕ) (key : List UInt8) : copies (n + 1) key = key ++ copies n key := by
  rw [copies, replicate_succ, flatten_cons, copies]

theorem copies_nil (n : ℕ) : copies n [] = [] := flatten_replicate_nil

end

/-! ## The steps -/

section
variable {s t : State} {left : ℕ} {buf : Buf}

/-- Everything is delivered, in the buffer, or of the key in the handle; and what is written to a buffer is in it. -/
structure Inv (s : State) : Prop where
  high : s.tty.lastUtf16HighSurrogate = (typed s.records).1
  bytes : s.delivered ++ s.collected ++ s.tty.remaining = (typed s.records).2
  count : s.tty.repeatCount < 2 ^ 16
  room : ∀ left buf, s.pc = .loop left buf → buf.bytes ≠ [] → buf.bytes.length < buf.len

theorem remaining_nil {t : Tty} (h : t.lastKey = []) : t.remaining = [] := by
  rw [Tty.remaining, h, copies_nil, drop_nil]
  rfl

theorem remaining_next (t : Tty) :
    t.remaining = (t.lastKey.drop t.lastKeyOffset).take 1 ++ { t with lastKeyOffset := t.lastKeyOffset + 1 }.remaining := by
  rw [Tty.remaining, Tty.remaining, ← append_assoc, ← drop_drop, take_append_drop]

theorem typed_snoc (records : List Record) (r : Record) : typed (records ++ [r]) = press (typed records) r := by
  rw [typed, foldl_append]
  rfl

theorem Tty.record_spec {t : Tty} (hk : t.lastKey = []) (bytes : List UInt8) (r : Record) :
    press (t.lastUtf16HighSurrogate, bytes) r = ((t.record r).lastUtf16HighSurrogate, bytes ++ (t.record r).remaining) := by
  cases r with
  | key k =>
    rw [press, Tty.record]
    cases (k.accept t.lastUtf16HighSurrogate).2 with
    | none =>
      have hnil : { t with lastUtf16HighSurrogate := (k.accept t.lastUtf16HighSurrogate).1, repeatCount := k.repeatCount }.remaining
          = [] := remaining_nil hk
      rw [hnil]
      rfl
    | some key =>
      have hcopies : copies (max 1 k.repeatCount) key = key ++ copies (max 1 k.repeatCount - 1) key := by
        rw [← copies_succ, Nat.sub_add_cancel (Nat.le_max_left 1 _)]
      rw [Option.map_some, hcopies]
      rfl
  | windowBufferSize | other =>
    change (t.lastUtf16HighSurrogate, bytes) = (t.lastUtf16HighSurrogate, bytes ++ t.remaining)
    rw [remaining_nil hk, append_nil]

theorem Tty.record_count {t : Tty} (h : t.repeatCount < 2 ^ 16) (r : Record) : (t.record r).repeatCount < 2 ^ 16 := by
  cases r with
  | key k =>
    rw [Tty.record]
    cases (k.accept t.lastUtf16HighSurrogate).2 with
    | none | some key => exact k.repeatCount_lt
  | windowBufferSize | other => exact h

theorem Tty.repeat_spec {t : Tty} (hlt : t.repeatCount < 2 ^ 16) (hpos : t.repeatCount ≠ 0)
    (hle : t.lastKey.length ≤ t.lastKeyOffset) :
    t.repeat_.remaining = t.remaining ∧ t.repeat_.lastUtf16HighSurrogate = t.lastUtf16HighSurrogate ∧
      t.repeat_.repeatCount < 2 ^ 16 := by
  have hmod : (t.repeatCount + (2 ^ 16 - 1)) % 2 ^ 16 = t.repeatCount - 1 := by omega
  have hrest : t.remaining = copies (t.repeatCount - 1) t.lastKey := by
    rw [Tty.remaining, drop_eq_nil_of_le hle, nil_append, Nat.max_eq_right (by omega)]
  simp only [Tty.repeat_, hmod, hrest]
  split_ifs with h
  · refine ⟨?_, rfl, by dsimp only; omega⟩
    rw [Tty.remaining]
    rw [drop_zero, Nat.max_eq_right h, ← copies_succ, Nat.sub_add_cancel h]
  · refine ⟨?_, rfl, by dsimp only; omega⟩
    rw [remaining_nil rfl, show t.repeatCount - 1 = 0 by omega]
    rfl

theorem record_inv (hi : Inv s) (hpc : s.pc = .loop (left + 1) buf) (hk : s.tty.lastKey = []) (r : Record) :
    Inv (s.record left buf r) := by
  have hbytes := hi.bytes
  rw [remaining_nil hk, append_nil, State.collected, hpc] at hbytes
  have htyped : typed (s.records ++ [r]) =
      ((s.tty.record r).lastUtf16HighSurrogate, s.delivered ++ buf.bytes ++ (s.tty.record r).remaining) := by
    rw [typed_snoc, hbytes, ← Tty.record_spec hk, hi.high]
  exact ⟨(congrArg Prod.fst htyped).symm, (congrArg Prod.snd htyped).symm, Tty.record_count hi.count r,
    fun left' buf' h hne => hi.room (left + 1) buf' (by cases h; exact hpc) hne⟩

theorem put_inv (buf : Buf) (high : s.tty.lastUtf16HighSurrogate = (typed s.records).1)
    (bytes : s.delivered ++ buf.bytes ++ s.tty.remaining = (typed s.records).2) (count : s.tty.repeatCount < 2 ^ 16)
    (room : buf.bytes.length < buf.len) (left : ℕ) : Inv (s.put left buf) := by
  have hnext : s.delivered ++ (buf.bytes ++ (s.tty.lastKey.drop s.tty.lastKeyOffset).take 1) ++
      { s.tty with lastKeyOffset := s.tty.lastKeyOffset + 1 }.remaining = (typed s.records).2 := by
    rw [← bytes, remaining_next s.tty]
    simp
  have hlen : (buf.bytes ++ (s.tty.lastKey.drop s.tty.lastKeyOffset).take 1).length ≤ buf.len := by
    rw [length_append, length_take]
    omega
  rw [State.put]
  split_ifs with hfull
  · refine ⟨high, ?_, count, fun _ _ h _ => by cases h⟩
    rw [State.collected, append_nil]
    exact hnext
  · refine ⟨high, hnext, count, fun _ _ h _ => ?_⟩
    cases h
    exact Nat.lt_of_le_of_ne hlen hfull

theorem moved_inv {t : Tty} {pc : Pc} (hi : Inv s) (hcollected : s.collected = [])
    (hhigh : t.lastUtf16HighSurrogate = s.tty.lastUtf16HighSurrogate) (hremaining : t.remaining = s.tty.remaining)
    (hcount : t.repeatCount = s.tty.repeatCount) (hpc : ∀ left buf, pc = .loop left buf → buf = nullBuf) :
    Inv { s with tty := t, pc := pc } := by
  have hbytes := hi.bytes
  rw [hcollected] at hbytes
  refine ⟨hhigh.trans hi.high, ?_, by rw [hcount]; exact hi.count, ?_⟩
  · have hnone : ({ s with tty := t, pc := pc } : State).collected = [] := by
      cases pc with
      | loop left buf => rw [hpc left buf rfl]; rfl
      | _ => rfl
    rw [hnone, hremaining]
    exact hbytes
  · intro left buf h hne
    rw [hpc left buf h] at hne
    exact absurd rfl hne

theorem collected_loop (hpc : s.pc = .loop left buf) : s.collected = buf.bytes := by
  rw [State.collected, hpc]

theorem collected_tty (s : State) (t : Tty) : { s with tty := t }.collected = s.collected := rfl

theorem Calls.collected (h : s.Calls) : s.collected = [] ∧ ∀ left buf, s.pc = .loop left buf → buf = nullBuf := by
  obtain h | ⟨left, h⟩ | h := h
  · exact ⟨by rw [State.collected, h], fun _ _ h' => by rw [h] at h'; cases h'⟩
  · exact ⟨by rw [State.collected, h], fun _ _ h' => by rw [h] at h'; cases h'⟩
  · exact ⟨by rw [State.collected, h], fun _ _ h' => by rw [h] at h'; cases h'⟩

theorem out_inv (hi : Inv s) (hcollected : s.collected = []) : Inv s.out :=
  moved_inv hi hcollected rfl rfl rfl fun _ _ h => by cases h

theorem process_inv (hi : Inv s) (hpc : s.pc = .idle) (r : Result) : Inv (s.process r) := by
  have hcollected : s.collected = [] := by rw [State.collected, hpc]
  have hcleared : Inv { s with tty := { s.tty with readPending := false } } :=
    moved_inv hi hcollected rfl rfl rfl fun _ _ h => by rw [hpc] at h; cases h
  unfold State.process
  dsimp only
  split_ifs
  · exact out_inv hcleared hcollected
  · cases r with
    | error | console => exact moved_inv (s := s) hi hcollected rfl rfl rfl fun _ _ h => by cases h
    | records n =>
      refine moved_inv (s := s) hi hcollected rfl rfl rfl fun _ _ h => ?_
      cases h
      rfl

/-- **A step** keeps the bytes together. -/
theorem step_inv {l : Label} (hi : Inv s) (hp : Proper s l) (h : Step s l t) : Inv t := by
  cases h with
  | start hu hr | stop hu hr =>
    obtain ⟨hcollected, hpc⟩ := Calls.collected hu
    exact moved_inv hi hcollected rfl rfl rfl hpc
  | process hpc hpending r => exact process_inv hi hpc r
  | record hpc hr hk r => exact record_inv hi hpc hk r
  | recordFails hpc hr hk => exact moved_inv (s := s) hi hp rfl rfl rfl fun _ _ h => by cases h
  | @copy left buf hpc hr hlt =>
    rw [State.copy]
    split_ifs with hnil
    · exact moved_inv hi ((collected_loop hpc).trans hnil) rfl rfl rfl fun _ _ h => by cases h
    · have hbytes := hi.bytes
      rw [collected_loop hpc] at hbytes
      exact put_inv buf hi.high hbytes hi.count (hi.room left buf hpc hnil) left
  | @repeat_ left buf hpc hr hk hle =>
    obtain ⟨hremaining, hhigh, hcount⟩ := Tty.repeat_spec hi.count hp hle
    refine ⟨hhigh.trans hi.high, ?_, hcount, hi.room⟩
    rw [collected_tty, hremaining]
    exact hi.bytes
  | @allocated left hpc len =>
    have hcollected : s.collected = [] := by rw [State.collected, hpc]
    rw [State.allocated]
    split_ifs with hzero
    · exact moved_inv hi hcollected rfl rfl rfl fun _ _ h => by cases h
    · have hbytes := hi.bytes
      rw [hcollected] at hbytes
      exact put_inv ⟨len, []⟩ hi.high hbytes hi.count (Nat.pos_of_ne_zero hzero) left
  | @finish left buf hpc hend =>
    have hbytes := hi.bytes
    rw [collected_loop hpc] at hbytes
    rw [State.finish]
    split_ifs with hnil
    · exact out_inv hi ((collected_loop hpc).trans hnil)
    · refine ⟨hi.high, ?_, hi.count, fun _ _ h _ => by cases h⟩
      rw [State.collected, append_nil]
      exact hbytes
  | ret hpc =>
    refine moved_inv hi (by rw [State.collected, hpc]) rfl rfl rfl fun _ _ h => ?_
    cases h
    rfl
  | lastRet hpc =>
    refine out_inv hi ?_
    rw [State.collected, hpc]

theorem inv_reachable (h : (sys.restrict Proper).Reachable s) : Inv s := by
  have hinductive : (sys.restrict Proper).Inductive Inv := by
    refine ⟨?_, fun s l t hi hs => step_inv hi hs.1 hs.2⟩
    rintro s rfl
    exact ⟨rfl, rfl, by decide, fun _ _ h => by cases h⟩
  exact hinductive.reachable h

/-- **Every byte is delivered**, once and in order. -/
theorem raw_delivers (s : State) (h : (sys.restrict Proper).Reachable s) : Delivers s := by
  have hi := inv_reachable h
  refine ⟨?_, fun hpc => ?_⟩
  · rw [← hi.bytes, append_assoc]
    exact List.prefix_append _ _
  · have hnone : s.collected = [] := by
      rw [State.collected]
      cases hs : s.pc with
      | loop left buf => exact absurd hs (hpc left buf)
      | _ => rfl
    rw [← hi.bytes, hnone, append_nil]

end

/-! ## What goes wrong -/

/-- The key `a`. -/
def keyA (n : ℕ) (h : n < 2 ^ 16) : Record := .key ⟨true, n, h, 0x41, 0x61, false, false, false, false, false⟩

theorem started (n : ℕ) : (sys.restrict Proper).Reachable ⟨⟨true, false, [], 0, 0, 0⟩, .loop n nullBuf, [], []⟩ := by
  have h0 : (sys.restrict Proper).Reachable ⟨.fresh, .idle, [], []⟩ := LTS.Reachable.init rfl
  have h1 := h0.step ⟨by exact trivial, Step.start (.inl rfl) rfl⟩
  exact h1.step ⟨by exact trivial, Step.process rfl rfl (.records n)⟩

/-- A key that comes twice, buffers of one byte; after the first one reading is stopped and started again. -/
theorem raw_delivers_twice : ∃ s, (sys.restrict Proper).Reachable s ∧ s.pc = .idle ∧ s.delivered = [0x61, 0x61] ∧ Delivers s := by
  have h1 := (started 1).step ⟨by exact trivial, Step.record rfl rfl rfl (keyA 2 (by decide))⟩
  have h2 := h1.step ⟨by exact trivial, Step.copy rfl rfl (by decide)⟩
  have h3 := h2.step ⟨by exact trivial, Step.allocated rfl 1⟩
  have h4 := h3.step ⟨by exact trivial, Step.stop (.inr (.inl ⟨0, rfl⟩)) rfl⟩
  have h5 := h4.step ⟨by exact trivial, Step.start (.inr (.inl ⟨0, rfl⟩)) rfl⟩
  have h6 := h5.step ⟨by exact trivial, Step.ret rfl⟩
  have h7 := h6.step ⟨by exact Nat.succ_ne_zero 1, Step.repeat_ rfl rfl (by decide) (by decide)⟩
  have h8 := h7.step ⟨by exact trivial, Step.copy rfl rfl (by decide)⟩
  have h9 := h8.step ⟨by exact trivial, Step.allocated rfl 1⟩
  have h10 := h9.step ⟨by exact trivial, Step.ret rfl⟩
  have h11 := h10.step ⟨by exact Nat.succ_ne_zero 0, Step.repeat_ rfl rfl (by decide) (by decide)⟩
  have h12 := h11.step ⟨by exact trivial, Step.finish rfl fun hgoes => hgoes.1.elim (Nat.lt_irrefl 0) fun h => h rfl⟩
  exact ⟨_, h12, rfl, rfl, raw_delivers _ h12⟩

/-- A key that comes 0 times comes 2^16 times: the second time is one too many. -/
theorem raw_zero : ¬ ∀ s, sys.Reachable s → Delivers s := by
  intro hall
  have h1 := (started 1).of_restrict.step (Step.record rfl rfl rfl (keyA 0 (by decide)))
  have h2 := h1.step (Step.copy rfl rfl (by decide))
  have h3 := h2.step (Step.allocated rfl 1)
  have h4 := h3.step (Step.ret rfl)
  have h5 := h4.step (Step.repeat_ rfl rfl (by decide) (by decide))
  have h6 := h5.step (Step.copy rfl rfl (by decide))
  have h7 := h6.step (Step.allocated rfl 1)
  have h := (hall _ h7).order
  revert h
  decide

/-- The call that reads the second record fails: the first key is in the buffer, and is not delivered. -/
theorem raw_fails : ∃ s, sys.Reachable s ∧ s.pc = .idle ∧ s.delivered = [] ∧ s.tty.remaining = [] ∧ (typed s.records).2 = [0x61] := by
  have h1 := (started 2).of_restrict.step (Step.record rfl rfl rfl (keyA 1 (by decide)))
  have h2 := h1.step (Step.copy rfl rfl (by decide))
  have h3 := h2.step (Step.allocated rfl 8)
  have h4 := h3.step (Step.repeat_ rfl rfl (by decide) (by decide))
  have h5 := h4.step (Step.recordFails rfl rfl rfl)
  have h6 := h5.step (Step.lastRet rfl)
  exact ⟨_, h6, rfl, rfl, rfl, rfl⟩

end Libuv.L5.TtyRaw
