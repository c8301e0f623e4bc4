import Libuv.Core.LTS
import Mathlib.Data.Int.Basic
import Mathlib.Tactic.Common

/-!
# What keeps a reading stream active (`win/tty.c`, `win/tcp.c`, `win/handle-inl.h`)

A TTY, or a TCP stream, whose reads are all without a buffer (`uv_active_tcp_streams_threshold` is 0, so that
`UV_HANDLE_ZERO_READ` is set for every read). `activecnt` is meant to count the registered requests, `UV_HANDLE_READING`
and `UV_HANDLE_LISTENING`; the handle keeps `uv_run` going while it is active.

The functions are cut where they call `alloc_cb` or `read_cb`: `stack` holds what is still to be done, with `user` on top
while the owner's code runs, which may call anything that it may call outside of the loop. What the system calls return
is in the labels. The bytes, the keys and what a key is turned into are left out, with `reqs_pending` and the endgame,
which are about closing, and the assertion that `activecnt` is not negative.

* `Inv`: the count, and that one read request exists if and only if `UV_HANDLE_READ_PENDING` is set.
* `Proper`: the steps that keep it. `step_iff`: these and no others. `read_active`: runs of these.
* `raw_wait_fails`: a stream that keeps the loop alive for good. `stop_in_alloc`, `twice_queued`: the other kinds.
-/
namespace Libuv.L5.ReadActive

inductive Kind
  | tty
  | tcp
  deriving DecidableEq

structure Stream where
  reading : Bool
  readPending : Bool
  closing : Bool
  active : Bool
  listening : Bool
  readable : Bool
  /-- `UV_HANDLE_TTY_RAW` -/
  raw : Bool
  cancellationPending : Bool
  /-- `tty.rd.read_line_buffer.len != 0` -/
  lineBuffer : Bool
  /-- `tty.rd.last_key_len > 0` -/
  lastKey : Bool
  activecnt : ℤ
  /-- the requests registered with the handle -/
  reqs : ℕ
  /-- how often `read_req` is with the system .. -/
  outstanding : ℕ
  /-- .. and in the ring of pending requests -/
  ring : ℕ
  deriving DecidableEq

/-- Where a read request goes: a call that fails, or succeeds at once, puts it into the ring. -/
inductive Place
  | system
  | ring
  deriving DecidableEq

namespace Stream
variable (h : Stream)

/-- mirrors win/handle-inl.h:42-48 -/
def increaseActiveCount : Stream :=
  { h with
    activecnt := h.activecnt + 1
    active := if h.activecnt = 0 then true else h.active }

/-- mirrors win/handle-inl.h:32-39 -/
def decreaseActiveCount : Stream :=
  { h with
    activecnt := h.activecnt - 1
    active := if h.activecnt - 1 = 0 ∧ h.closing = false then false else h.active }

def queued (q : Place) : Stream :=
  match q with
  | .system => { h with readPending := true, outstanding := h.outstanding + 1 }
  | .ring => { h with readPending := true, ring := h.ring + 1 }

/-- `handle->flags &= ~UV_HANDLE_READING; DECREASE_ACTIVE_COUNT(loop, handle);` -/
def endReading : Stream := { h with reading := false }.decreaseActiveCount

/-- `canceled`: whether `uv__cancel_read_console` succeeds.
mirrors win/tty.c:1054-1082, libuv/src/win/stream.c:94-111 -/
def readStop (k : Kind) (canceled : Bool) : Stream :=
  let h := h.endReading
  match k with
  | .tcp => h
  | .tty =>
    if h.readPending = false ∨ h.raw = true ∨ h.cancellationPending = true then h
    else { h with cancellationPending := canceled }

/-- mirrors win/tcp.c:1459-1503, libuv/src/win/tty.c:2250-2268, libuv/src/win/handle-inl.h:63-73 -/
def close (k : Kind) (canceled : Bool) : Stream :=
  let h := if h.reading = true then h.readStop k canceled else h
  let h := if h.listening = true then { h with listening := false }.decreaseActiveCount else h
  { h with readable := false, closing := true, active := false }

end Stream

inductive Frame
  /-- a callback runs -/
  | user
  /-- `uv__tty_queue_read_line`, from `alloc_cb` on -/
  | lineAlloc
  /-- `uv_process_tty_read_line_req`, from `read_cb` on -/
  | lineRead
  /-- the loop of `uv_process_tty_read_raw_req` -/
  | rawLoop
  /-- its round, from `alloc_cb` on -/
  | rawAlloc
  /-- the loop of `uv__process_tcp_read_req`, with `count` -/
  | tcpLoop (count : ℕ)
  /-- its round, from `alloc_cb` on -/
  | tcpAlloc (count : ℕ)
  /-- another read, if still reading -/
  | again
  deriving DecidableEq

structure State where
  h : Stream
  stack : List Frame
  deriving DecidableEq

/-- A read request's result: an error; `GetNumberOfConsoleInputEvents` fails; success, with data in the line buffer or not. -/
inductive Result
  | error
  | console
  | data (bytes : Bool)
  deriving DecidableEq

inductive Round
  /-- no records and no bytes are left, or reading has ended; whether there is something in the buffer -/
  | finish (emit : Bool)
  /-- `ReadConsoleInputW` fails, or a character cannot be converted -/
  | fail
  | ignored
  | key
  | alloc
  | copied
  | full
  | keyDone
  deriving DecidableEq

/-- What becomes of a round of the TCP loop after `alloc_cb`. -/
inductive Recv
  | noBuffer
  | bytes (full : Bool)
  | eof
  | wouldBlock
  | error
  deriving DecidableEq

namespace State
variable (s : State)

/-- mirrors win/tty.c:454-480, 585-629, libuv/src/win/tcp.c:474-544 -/
def queueRead (k : Kind) (q : Place) : State :=
  match k with
  | .tcp => { s with h := s.h.queued q }
  | .tty =>
    let h := { s.h with lineBuffer := false }
    if s.h.raw = true then { s with h := h.queued q } else ⟨h, .user :: .lineAlloc :: s.stack⟩

/-- mirrors win/tty.c:1018-1051, libuv/src/win/tcp.c:722-745 -/
def readStart (k : Kind) (q : Place) : State :=
  let s : State := { s with h := { s.h with reading := true }.increaseActiveCount }
  if s.h.readPending = true then s
  else if k = .tty ∧ s.h.lastKey = true then { s with h := s.h.queued .ring }
  else s.queueRead k q

/-- `uv_tty_set_mode` to another mode, when no call fails.
mirrors win/tty.c:350-414 -/
def setMode (raw canceled : Bool) (q : Place) : State :=
  if s.h.reading = true then
    ({ s with h := { s.h.readStop .tty canceled with raw := raw } } : State).readStart .tty q
  else { s with h := { s.h with raw := raw } }

/-- mirrors win/tty.c:697-738 -/
def processTtyReadRawReq (r : Result) : State :=
  let h := { s.h with readPending := false }
  if h.reading = false ∨ h.raw = false then ⟨h, [.again]⟩
  else
    match r with
    | .error => ⟨{ h with reading := false }, [.user, .again]⟩
    | .console => ⟨h.endReading, [.user, .again]⟩
    | .data _ => ⟨h, [.rawLoop]⟩

/-- mirrors win/tty.c:960-999 -/
def processTtyReadLineReq (r : Result) : State :=
  let h := { s.h with readPending := false, lineBuffer := false }
  match r with
  | .data bytes =>
    if h.cancellationPending = false ∧ bytes = true then ⟨h, [.user, .lineRead]⟩
    else ⟨{ h with cancellationPending := false }, [.again]⟩
  | _ => if h.reading = true then ⟨h.endReading, [.user, .again]⟩ else ⟨h, [.again]⟩

/-- mirrors win/tcp.c:997-1123 -/
def processTcpReadReq (r : Result) : State :=
  let h := { s.h with readPending := false }
  match r with
  | .data _ => ⟨h, [.tcpLoop 32]⟩
  | _ => if h.reading = true then ⟨{ h.endReading with readable := false }, [.user]⟩ else ⟨h, []⟩

/-- The read request is taken off the ring.
mirrors win/tty.c:1002-1015 -/
def processReadReq (k : Kind) (r : Result) : State :=
  let s : State := { s with h := { s.h with ring := s.h.ring - 1 } }
  match k with
  | .tcp => s.processTcpReadReq r
  | .tty => if s.h.lineBuffer = true then s.processTtyReadLineReq r else s.processTtyReadRawReq r

/-- mirrors win/tty.c:740-944 -/
def round (rest : List Frame) : Round → Option State
  | .finish emit =>
    if s.h.reading = true ∧ s.h.lastKey = true then none
    else if emit = true then some ⟨s.h, .user :: .again :: rest⟩
    else some ⟨s.h, .again :: rest⟩
  -- a record is read when no key is left, and else a byte of it is taken
  | .fail => if s.h.reading = true ∧ s.h.lastKey = false then some ⟨s.h.endReading, .user :: .again :: rest⟩ else none
  | .ignored => if s.h.reading = true ∧ s.h.lastKey = false then some s else none
  | .key => if s.h.reading = true ∧ s.h.lastKey = false then some { s with h := { s.h with lastKey := true } } else none
  | .alloc => if s.h.reading = true ∧ s.h.lastKey = true then some ⟨s.h, .user :: .rawAlloc :: rest⟩ else none
  | .copied => if s.h.reading = true ∧ s.h.lastKey = true then some s else none
  | .full => if s.h.reading = true ∧ s.h.lastKey = true then some ⟨s.h, .user :: .rawLoop :: rest⟩ else none
  | .keyDone =>
    if s.h.reading = true ∧ s.h.lastKey = true then some { s with h := { s.h with lastKey := false } } else none

/-- mirrors win/tcp.c:1062-1110 -/
def recv (count : ℕ) (rest : List Frame) : Recv → State
  | .noBuffer => ⟨s.h, .user :: .again :: rest⟩
  | .bytes full => ⟨s.h, .user :: (if full then .tcpLoop count else .again) :: rest⟩
  | .eof => ⟨s.h.endReading, .user :: .again :: rest⟩
  | .wouldBlock => ⟨s.h, .user :: .again :: rest⟩
  | .error => ⟨{ s.h.endReading with readable := false }, .user :: .again :: rest⟩

/-- The owner's code runs: outside of the loop's functions, or in a callback. -/
def Calls : Prop := s.stack = [] ∨ ∃ rest, s.stack = .user :: rest

end State

inductive Label
  | start (q : Place)
  | stop (canceled : Bool)
  | close (canceled : Bool)
  | listen
  | setMode (raw canceled : Bool) (q : Place)
  | register
  | unregister
  /-- the system is done with a read request -/
  | complete
  | process (r : Result)
  | ret
  | again (q : Place)
  | lineAllocated (buffer : Bool) (q : Place)
  | lineRead
  | round (r : Round)
  /-- whether there is a buffer, and whether the first byte fills it -/
  | rawAllocated (buffer full : Bool)
  | loop
  | recv (r : Recv)
  deriving DecidableEq

/-- Calls that only return an error are not steps. -/
inductive Step (k : Kind) : State → Label → State → Prop
  | start {s : State} (hu : s.Calls) (hc : s.h.closing = false) (hr : s.h.reading = false) (hd : s.h.readable = true)
      (q : Place) : Step k s (.start q) (s.readStart k q)
  | stop {s : State} (hu : s.Calls) (hr : s.h.reading = true) (canceled : Bool) :
      Step k s (.stop canceled) { s with h := s.h.readStop k canceled }
  | close {s : State} (hu : s.Calls) (hc : s.h.closing = false) (canceled : Bool) :
      Step k s (.close canceled) { s with h := s.h.close k canceled }
  | listen {s : State} (hu : s.Calls) (hk : k = .tcp) (hc : s.h.closing = false) (hl : s.h.listening = false)
      (hr : s.h.reading = false) : Step k s .listen { s with h := { s.h with listening := true }.increaseActiveCount }
  | setMode {s : State} (hu : s.Calls) (hk : k = .tty) (hc : s.h.closing = false) (raw canceled : Bool) (q : Place)
      (hne : s.h.raw ≠ raw) : Step k s (.setMode raw canceled q) (s.setMode raw canceled q)
  | register {s : State} (hu : s.Calls) (hc : s.h.closing = false) :
      Step k s .register { s with h := { s.h with reqs := s.h.reqs + 1 }.increaseActiveCount }
  | unregister {s : State} (hs : s.stack = []) (hr : 0 < s.h.reqs) :
      Step k s .unregister ⟨{ s.h with reqs := s.h.reqs - 1 }.decreaseActiveCount, [.user]⟩
  | complete {s : State} (hs : s.stack = []) (ho : 0 < s.h.outstanding) :
      Step k s .complete { s with h := { s.h with outstanding := s.h.outstanding - 1, ring := s.h.ring + 1 } }
  | process {s : State} (hs : s.stack = []) (hr : 0 < s.h.ring) (r : Result) : Step k s (.process r) (s.processReadReq k r)
  | ret {s : State} (rest : List Frame) (hs : s.stack = .user :: rest) : Step k s .ret { s with stack := rest }
  | again {s : State} (rest : List Frame) (hs : s.stack = .again :: rest) (q : Place) :
      Step k s (.again q) (if s.h.reading = true ∧ s.h.readPending = false then
        ({ s with stack := rest } : State).queueRead k q else { s with stack := rest })
  | lineAllocated {s : State} (rest : List Frame) (hs : s.stack = .lineAlloc :: rest) (buffer : Bool) (q : Place) :
      Step k s (.lineAllocated buffer q) (if buffer = true then ⟨{ s.h with lineBuffer := true }.queued q, rest⟩
        else ⟨s.h, .user :: rest⟩)
  | lineRead {s : State} {rest : List Frame} (hs : s.stack = .lineRead :: rest) :
      Step k s .lineRead ⟨{ s.h with cancellationPending := false }, .again :: rest⟩
  | round {s t : State} {rest : List Frame} (hs : s.stack = .rawLoop :: rest) (r : Round) (ht : s.round rest r = some t) :
      Step k s (.round r) t
  | rawAllocated {s : State} {rest : List Frame} (hs : s.stack = .rawAlloc :: rest) (buffer full : Bool) :
      Step k s (.rawAllocated buffer full) ⟨s.h, if buffer = false then .user :: .again :: rest
        else if full = true then .user :: .rawLoop :: rest else .rawLoop :: rest⟩
  | loop {s : State} (rest : List Frame) (count : ℕ) (hs : s.stack = .tcpLoop count :: rest) :
      Step k s .loop ⟨s.h, if s.h.reading = true ∧ 0 < count then .user :: .tcpAlloc (count - 1) :: rest
        else .again :: rest⟩
  | recv {s : State} (rest : List Frame) (count : ℕ) (hs : s.stack = .tcpAlloc count :: rest) (r : Recv) :
      Step k s (.recv r) (s.recv count rest r)

/-- A stream before anything is done with it: of a TTY that is writable only, or a socket that is not connected, nothing can
be read. -/
def Stream.fresh (readable : Bool) : Stream :=
  { reading := false, readPending := false, closing := false, active := false, listening := false, readable := readable,
    raw := false, cancellationPending := false, lineBuffer := false, lastKey := false, activecnt := 0, reqs := 0,
    outstanding := 0, ring := 0 }

def sys (k : Kind) : LTS State Label where
  init s := ∃ readable, s = ⟨.fresh readable, []⟩
  step := Step k

/-! ## The invariant -/

structure Inv (h : Stream) : Prop where
  count : h.activecnt = h.reqs + h.reading.toNat + h.listening.toNat
  pending : h.outstanding + h.ring = h.readPending.toNat
  active : h.closing = false → (h.active = true ↔ 0 < h.activecnt)

/-- The steps that keep it: no failed wait ends raw reading; the end of a stream or an error is not met after reading has
been stopped in `alloc_cb`; and no read has been queued in `alloc_cb` of a line that is to be read. -/
def Proper (k : Kind) (s : State) : Label → Prop
  | .process .error => ¬(k = .tty ∧ s.h.lineBuffer = false ∧ s.h.reading = true ∧ s.h.raw = true)
  | .lineAllocated true _ => s.h.readPending = false
  | .recv .eof => s.h.reading = true
  | .recv .error => s.h.reading = true
  | _ => True

section
variable {h : Stream}

variable {h' : Stream} {s t : State} {k : Kind}

theorem Inv.congr (hi : Inv h) (hc : h'.activecnt = h.activecnt ∧ h'.reqs = h.reqs ∧
    h'.reading = h.reading ∧ h'.listening = h.listening) (hp : h'.outstanding + h'.ring = h'.readPending.toNat)
    (ha : h'.active = h.active ∧ h'.closing = h.closing) : Inv h' := by
  obtain ⟨h1, h2, h3, h4⟩ := hc
  obtain ⟨h5, h6⟩ := ha
  refine ⟨?_, hp, ?_⟩
  · rw [h1, h2, h3, h4]
    exact hi.count
  · rw [h5, h6, h1]
    exact hi.active

theorem Inv.increase (hi : Inv h) (hc : h'.reqs + h'.reading.toNat + h'.listening.toNat =
    h.reqs + h.reading.toNat + h.listening.toNat + 1) (hs : h'.activecnt = h.activecnt ∧ h'.active = h.active)
    (hp : h'.outstanding + h'.ring = h'.readPending.toNat) (hcl : h'.closing = h.closing) :
    Inv h'.increaseActiveCount := by
  obtain ⟨hcnt, hact⟩ := hs
  have hcount := hi.count
  refine ⟨?_, hp, fun hclosing => ?_⟩
  · change h'.activecnt + 1 = h'.reqs + h'.reading.toNat + h'.listening.toNat
    omega
  · change (if h'.activecnt = 0 then true else h'.active) = true ↔ 0 < h'.activecnt + 1
    have hiff := hi.active (by rw [← hcl]; exact hclosing)
    rw [hcnt, hact]
    by_cases h0 : h.activecnt = 0
    · rw [if_pos h0]
      exact ⟨fun _ => by omega, fun _ => rfl⟩
    · rw [if_neg h0, hiff]
      omega

theorem Inv.decrease (hi : Inv h) (hc : h'.reqs + h'.reading.toNat + h'.listening.toNat + 1 =
    h.reqs + h.reading.toNat + h.listening.toNat) (hs : h'.activecnt = h.activecnt ∧ h'.active = h.active)
    (hp : h'.outstanding + h'.ring = h'.readPending.toNat) (hcl : h'.closing = h.closing) :
    Inv h'.decreaseActiveCount := by
  obtain ⟨hcnt, hact⟩ := hs
  have hcount := hi.count
  refine ⟨?_, hp, fun hclosing => ?_⟩
  · change h'.activecnt - 1 = h'.reqs + h'.reading.toNat + h'.listening.toNat
    omega
  · change (if h'.activecnt - 1 = 0 ∧ h'.closing = false then false else h'.active) = true ↔ 0 < h'.activecnt - 1
    have hclosing' : h'.closing = false := hclosing
    have hiff := hi.active (by rw [← hcl]; exact hclosing)
    rw [hcnt, hact]
    by_cases h0 : h.activecnt - 1 = 0
    · rw [if_pos ⟨h0, hclosing'⟩]
      exact ⟨fun hf => absurd hf Bool.false_ne_true, fun hlt => by omega⟩
    · rw [if_neg fun hand => h0 hand.1, hiff]
      omega

theorem Inv.endReading (hi : Inv h) (hr : h.reading = true) : Inv h.endReading := by
  refine hi.decrease ?_ ⟨rfl, rfl⟩ hi.pending rfl
  rw [hr, Bool.toNat_true]
  change h.reqs + 0 + h.listening.toNat + 1 = _
  omega

theorem Inv.queued (hi : Inv h) (hp : h.readPending = false) (q : Place) : Inv (h.queued q) := by
  have hpending := hi.pending
  rw [hp] at hpending
  cases q with
  | system =>
    refine hi.congr ⟨rfl, rfl, rfl, rfl⟩ ?_ ⟨rfl, rfl⟩
    change h.outstanding + 1 + h.ring = 1
    have : h.outstanding + h.ring = 0 := hpending
    omega
  | ring =>
    refine hi.congr ⟨rfl, rfl, rfl, rfl⟩ ?_ ⟨rfl, rfl⟩
    change h.outstanding + (h.ring + 1) = 1
    have : h.outstanding + h.ring = 0 := hpending
    omega

theorem Inv.readStop (hi : Inv h) (hr : h.reading = true) (k : Kind) (canceled : Bool) : Inv (h.readStop k canceled) := by
  have he := hi.endReading hr
  cases k with
  | tcp => exact he
  | tty =>
    rw [Stream.readStop]
    split_ifs
    · exact he
    · exact he.congr ⟨rfl, rfl, rfl, rfl⟩ he.pending ⟨rfl, rfl⟩

theorem Inv.close (hi : Inv h) (k : Kind) (canceled : Bool) : Inv (h.close k canceled) := by
  have hstop : Inv (if h.reading = true then h.readStop k canceled else h) := by
    split_ifs with hr
    · exact hi.readStop hr k canceled
    · exact hi
  rw [Stream.close]
  generalize (if h.reading = true then h.readStop k canceled else h) = h' at hstop
  have hlisten : Inv (if h'.listening = true then { h' with listening := false }.decreaseActiveCount else h') := by
    split_ifs with hl
    · refine hstop.decrease ?_ ⟨rfl, rfl⟩ hstop.pending rfl
      rw [hl]
      rfl
    · exact hstop
  exact ⟨hlisten.count, hlisten.pending, fun hf => by cases hf⟩

theorem Inv.startReading (hi : Inv h) (hr : h.reading = false) :
    Inv { h with reading := true }.increaseActiveCount := by
  refine hi.increase ?_ ⟨rfl, rfl⟩ hi.pending rfl
  rw [hr, Bool.toNat_false]
  change h.reqs + 1 + h.listening.toNat = _
  omega

/-! ### Steps of the loop's functions -/

theorem Inv.lines (hi : Inv h) (lineBuffer lastKey canceled readable : Bool) :
    Inv { h with lineBuffer := lineBuffer, lastKey := lastKey, cancellationPending := canceled, readable := readable } :=
  hi.congr ⟨rfl, rfl, rfl, rfl⟩ hi.pending ⟨rfl, rfl⟩

theorem Inv.queueRead (hi : Inv s.h) (hp : s.h.readPending = false) (k : Kind) (q : Place) :
    Inv (s.queueRead k q).h := by
  cases k with
  | tcp => exact hi.queued hp q
  | tty =>
    have hl : Inv { s.h with lineBuffer := false } := hi.lines false s.h.lastKey s.h.cancellationPending s.h.readable
    rw [State.queueRead]
    split_ifs
    · exact hl.queued hp q
    · exact hl

theorem Inv.readStart (hi : Inv s.h) (hr : s.h.reading = false) (k : Kind) (q : Place) :
    Inv (s.readStart k q).h := by
  have hstart := hi.startReading hr
  rw [State.readStart]
  split_ifs with hp hk
  · exact hstart
  · exact hstart.queued (eq_false_of_ne_true hp) .ring
  · exact Inv.queueRead hstart (eq_false_of_ne_true hp) k q

theorem readStop_reading (k : Kind) (canceled : Bool) : (h.readStop k canceled).reading = false := by
  cases k with
  | tcp => rfl
  | tty =>
    rw [Stream.readStop]
    split_ifs
    · rfl
    · rfl

theorem Inv.setMode (hi : Inv s.h) (raw canceled : Bool) (q : Place) : Inv (s.setMode raw canceled q).h := by
  rw [State.setMode]
  split_ifs with hr
  · have hstop := hi.readStop hr .tty canceled
    have hraw : Inv { s.h.readStop .tty canceled with raw := raw } :=
      hstop.congr ⟨rfl, rfl, rfl, rfl⟩ hstop.pending ⟨rfl, rfl⟩
    exact hraw.readStart (readStop_reading .tty canceled) .tty q
  · exact hi.congr ⟨rfl, rfl, rfl, rfl⟩ hi.pending ⟨rfl, rfl⟩

theorem Inv.taken (hi : Inv h) (hr : 0 < h.ring) : Inv { h with ring := h.ring - 1, readPending := false } := by
  refine hi.congr ⟨rfl, rfl, rfl, rfl⟩ ?_ ⟨rfl, rfl⟩
  have hpending := hi.pending
  have hle := Bool.toNat_le h.readPending
  change h.outstanding + (h.ring - 1) = 0
  omega

theorem Inv.complete (hi : Inv h) (ho : 0 < h.outstanding) :
    Inv { h with outstanding := h.outstanding - 1, ring := h.ring + 1 } := by
  refine hi.congr ⟨rfl, rfl, rfl, rfl⟩ ?_ ⟨rfl, rfl⟩
  have hpending := hi.pending
  change h.outstanding - 1 + (h.ring + 1) = h.readPending.toNat
  omega

theorem Inv.unregister (hi : Inv h) (hr : 0 < h.reqs) : Inv { h with reqs := h.reqs - 1 }.decreaseActiveCount := by
  refine hi.decrease ?_ ⟨rfl, rfl⟩ hi.pending rfl
  dsimp only
  omega

theorem Inv.register (hi : Inv h) : Inv { h with reqs := h.reqs + 1 }.increaseActiveCount := by
  refine hi.increase ?_ ⟨rfl, rfl⟩ hi.pending rfl
  dsimp only
  omega

theorem Inv.listen (hi : Inv h) (hl : h.listening = false) : Inv { h with listening := true }.increaseActiveCount := by
  refine hi.increase ?_ ⟨rfl, rfl⟩ hi.pending rfl
  rw [hl]
  rfl

theorem Inv.processTcp (hi : Inv { s.h with readPending := false }) (r : Result) :
    Inv (s.processTcpReadReq r).h := by
  have hfail : Inv (if s.h.reading = true then
      (⟨{ ({ s.h with readPending := false } : Stream).endReading with readable := false }, [.user]⟩ : State)
      else ⟨{ s.h with readPending := false }, []⟩).h := by
    split_ifs with hrd
    · exact (hi.endReading hrd).lines _ _ _ false
    · exact hi
  cases r with
  | data bytes => exact hi
  | error | console => exact hfail

theorem Inv.processLine (hi : Inv { s.h with readPending := false }) (r : Result) :
    Inv (s.processTtyReadLineReq r).h := by
  have hline := hi.lines false s.h.lastKey s.h.cancellationPending s.h.readable
  have hfail : Inv (if s.h.reading = true then
      (⟨({ s.h with readPending := false, lineBuffer := false } : Stream).endReading, [.user, .again]⟩ : State)
      else ⟨{ s.h with readPending := false, lineBuffer := false }, [.again]⟩).h := by
    split_ifs with hrd
    · exact hline.endReading hrd
    · exact hline
  cases r with
  | data bytes =>
    rw [State.processTtyReadLineReq]
    split_ifs
    · exact hline
    · exact hline.lines false _ false _
  | error | console => exact hfail

theorem Inv.processRaw (hi : Inv { s.h with readPending := false }) {r : Result}
    (hp : r = .error → ¬(s.h.reading = true ∧ s.h.raw = true)) : Inv (s.processTtyReadRawReq r).h := by
  unfold State.processTtyReadRawReq
  dsimp only
  split_ifs with hout
  · exact hi
  · obtain ⟨hrd, hraw⟩ := not_or.mp hout
    cases r with
    | data bytes => exact hi
    | console => exact hi.endReading (eq_true_of_ne_false hrd)
    | error => exact absurd ⟨eq_true_of_ne_false hrd, eq_true_of_ne_false hraw⟩ (hp rfl)

theorem Inv.process {r : Result} (hi : Inv s.h) (hr : 0 < s.h.ring) (hp : Proper k s (.process r)) :
    Inv (s.processReadReq k r).h := by
  have ht := hi.taken hr
  cases k with
  | tcp => exact Inv.processTcp (s := { s with h := { s.h with ring := s.h.ring - 1 } }) ht r
  | tty =>
    rw [State.processReadReq]
    split_ifs with hl
    · exact Inv.processLine (s := { s with h := { s.h with ring := s.h.ring - 1 } }) ht r
    · refine Inv.processRaw (s := { s with h := { s.h with ring := s.h.ring - 1 } }) ht fun hre hraw => ?_
      rw [hre] at hp
      exact hp ⟨rfl, eq_false_of_ne_true hl, hraw⟩

theorem guarded {p : Prop} [Decidable p] (ht : (if p then some s else none) = some t) : p ∧ s = t := by
  split_ifs at ht with hp
  exact ⟨hp, Option.some.inj ht⟩

theorem Inv.round {rest : List Frame} {r : Round} (hi : Inv s.h) (ht : s.round rest r = some t) :
    Inv t.h := by
  have hkey : ∀ lastKey, Inv { s.h with lastKey := lastKey } := fun lastKey => hi.lines _ lastKey _ _
  cases r with
  | finish emit =>
    rw [State.round] at ht
    split_ifs at ht
    · cases ht
      exact hi
    · cases ht
      exact hi
  | fail =>
    obtain ⟨hgo, rfl⟩ := guarded ht
    exact hi.endReading hgo.1
  | ignored =>
    obtain ⟨-, rfl⟩ := guarded ht
    exact hi
  | key =>
    obtain ⟨-, rfl⟩ := guarded ht
    exact hkey true
  | alloc | copied | full =>
    obtain ⟨-, rfl⟩ := guarded ht
    exact hi
  | keyDone =>
    obtain ⟨-, rfl⟩ := guarded ht
    exact hkey false

theorem Inv.recv {r : Recv} (hi : Inv s.h) (hp : Proper k s (.recv r)) (count : ℕ)
    (rest : List Frame) : Inv (s.recv count rest r).h := by
  cases r with
  | noBuffer | bytes full | wouldBlock => exact hi
  | eof => exact hi.endReading hp
  | error => exact (hi.endReading hp).lines _ _ _ false

theorem Inv.step {l : Label} (hi : Inv s.h) (hp : Proper k s l) (hs : Step k s l t) : Inv t.h := by
  cases hs with
  | start hu hc hr hd q => exact hi.readStart hr k q
  | stop hu hr canceled => exact hi.readStop hr k canceled
  | close hu hc canceled => exact hi.close k canceled
  | listen hu hk hc hl hr => exact hi.listen hl
  | setMode hu hk hc raw canceled q hne => exact hi.setMode raw canceled q
  | register hu hc => exact hi.register
  | unregister hs hr => exact hi.unregister hr
  | complete hs ho => exact hi.complete ho
  | process hs hr r => exact hi.process hr hp
  | ret rest hs => exact hi
  | again rest hs q =>
    split_ifs with hgo
    · exact Inv.queueRead (s := { s with stack := rest }) hi hgo.2 k q
    · exact hi
  | lineAllocated rest hs buffer q =>
    cases buffer with
    | false => exact hi
    | true => exact (hi.lines true _ _ _).queued hp q
  | lineRead hs => exact hi.lines _ _ false _
  | round hs r ht => exact hi.round ht
  | rawAllocated hs buffer full | loop rest count hs => exact hi
  | recv rest count hs r => exact hi.recv hp _ _

end

/-- In every run of `Proper` steps the count is right, and a stream that neither reads, nor listens, nor has a request does not
keep the loop alive. -/
theorem read_active {k : Kind} {s : State} (hr : ((sys k).restrict (Proper k)).Reachable s) :
    Inv s.h ∧ (s.h.closing = false → s.h.reading = false → s.h.listening = false → s.h.reqs = 0 → s.h.active = false) := by
  have hinv : ((sys k).restrict (Proper k)).Inductive fun s => Inv s.h := by
    refine ⟨fun s h0 => ?_, fun s l s' hi hst => hi.step hst.1 hst.2⟩
    obtain ⟨readable, rfl⟩ := h0
    exact ⟨rfl, rfl, fun _ => ⟨fun hf => absurd hf Bool.false_ne_true, fun hf => absurd hf (Int.lt_irrefl 0)⟩⟩
  have hi := hinv.reachable hr
  refine ⟨hi, fun hc hrd hl hq => ?_⟩
  have hcount := hi.count
  rw [hrd, hl, hq] at hcount
  refine eq_false_of_ne_true fun ha => ?_
  have hlt := (hi.active hc).mp ha
  rw [hcount] at hlt
  exact absurd hlt (by decide)

/-! ## The other steps -/

theorem not_inv_of_count {h : Stream} (hne : h.activecnt ≠ h.reqs + h.reading.toNat + h.listening.toNat) : ¬Inv h :=
  fun hi => hne hi.count

/-- A step that is not `Proper` breaks the count, or makes two requests of one. -/
theorem not_inv_of_not_proper {s t : State} {k : Kind} {l : Label} (hi : Inv s.h) (hp : ¬Proper k s l) (hs : Step k s l t) :
    ¬Inv t.h := by
  have hcount := hi.count
  cases hs with
  | process hs hr r =>
    cases r with
    | error =>
      obtain ⟨rfl, hl, hrd, hraw⟩ := not_not.mp hp
      rw [State.processReadReq]
      rw [if_neg (by rw [hl]; exact Bool.false_ne_true)]
      unfold State.processTtyReadRawReq
      rw [if_neg (by rw [hrd, hraw]; decide)]
      refine not_inv_of_count ?_
      rw [hrd] at hcount
      change s.h.activecnt ≠ s.h.reqs + 0 + s.h.listening.toNat
      rw [Bool.toNat_true] at hcount
      omega
    | console | data bytes => exact absurd trivial hp
  | lineAllocated rest hs buffer q =>
    cases buffer with
    | false => exact absurd trivial hp
    | true =>
      intro hit
      have hpending := hi.pending
      have hrp : s.h.readPending = true := eq_true_of_ne_false hp
      rw [hrp, Bool.toNat_true] at hpending
      have htwo := hit.pending
      cases q with
      | system =>
        change s.h.outstanding + 1 + s.h.ring = 1 at htwo
        omega
      | ring =>
        change s.h.outstanding + (s.h.ring + 1) = 1 at htwo
        omega
  | recv rest count hs r =>
    have hended : s.h.reading = false → ¬Inv s.h.endReading := by
      intro hrd
      refine not_inv_of_count ?_
      rw [hrd, Bool.toNat_false] at hcount
      change s.h.activecnt - 1 ≠ s.h.reqs + 0 + s.h.listening.toNat
      omega
    cases r with
    | eof => exact hended (eq_false_of_ne_true hp)
    | error =>
      intro hit
      exact hended (eq_false_of_ne_true hp) (hit.lines _ _ _ s.h.readable)
    | noBuffer | bytes full | wouldBlock => exact absurd trivial hp
  | _ => exact absurd trivial hp

theorem step_iff {s t : State} {k : Kind} {l : Label} (hi : Inv s.h) (hs : Step k s l t) : Inv t.h ↔ Proper k s l :=
  ⟨fun ht => by_contra fun hp => not_inv_of_not_proper hi hp hs ht, fun hp => hi.step hp hs⟩

/-- The wait of a TTY that reads in raw mode fails. -/
theorem step_iff_wait_fails : ∃ s t : State, Inv s.h ∧ s.h.active = true ∧ Step .tty s (.process .error) t ∧ ¬Inv t.h := by
  let s : State := ((⟨{ Stream.fresh true with raw := true }, []⟩ : State).readStart .tty .ring)
  have hi : Inv s.h := ⟨rfl, rfl, fun _ => by decide⟩
  have hs : Step .tty s (.process .error) _ := .process rfl (by decide) .error
  exact ⟨s, _, hi, rfl, hs, fun ht => (step_iff hi hs).1 ht ⟨rfl, rfl, rfl, rfl⟩⟩

/-! ## Runs -/

/-- A TCP stream reads a full buffer and then the end of the stream. -/
theorem read_active_eof : ∃ s : State, s.stack = [] ∧ s.h.reading = false ∧ s.h.closing = false ∧ Inv s.h ∧ s.h.active = false := by
  have h0 : ((sys .tcp).restrict (Proper .tcp)).Reachable ⟨.fresh true, []⟩ := .init ⟨true, rfl⟩
  have h1 := h0.next (.start .ring) ⟨trivial, .start (.inl rfl) rfl rfl rfl .ring⟩
  have h2 := h1.next (.process (.data true)) ⟨trivial, .process rfl (by decide) (.data true)⟩
  have h3 := h2.next .loop ⟨trivial, .loop [] 32 rfl⟩
  have h4 := h3.next .ret ⟨trivial, .ret [.tcpAlloc 31] rfl⟩
  have h5 := h4.next (.recv (.bytes true)) ⟨trivial, .recv [] 31 rfl (.bytes true)⟩
  have h6 := h5.next .ret ⟨trivial, .ret [.tcpLoop 31] rfl⟩
  have h7 := h6.next .loop ⟨trivial, .loop [] 31 rfl⟩
  have h8 := h7.next .ret ⟨trivial, .ret [.tcpAlloc 30] rfl⟩
  have h9 := h8.next (.recv .eof) ⟨rfl, .recv [] 30 rfl .eof⟩
  have h10 := h9.next .ret ⟨trivial, .ret [.again] rfl⟩
  have h11 := h10.next (.again .system) ⟨trivial, .again [] rfl .system⟩
  exact ⟨_, rfl, rfl, rfl, (read_active h11).1, (read_active h11).2 rfl rfl rfl rfl⟩

/-- A TTY in raw mode whose wait cannot be registered: the read ends with an error, and the handle stays active, with nothing
that could end that. -/
theorem raw_wait_fails : ∃ s, (sys .tty).Reachable s ∧ s.stack = [] ∧ s.h.closing = false ∧ s.h.reading = false ∧
    s.h.listening = false ∧ s.h.reqs = 0 ∧ s.h.outstanding + s.h.ring = 0 ∧ s.h.active = true ∧ ¬Inv s.h := by
  have h0 : (sys .tty).Reachable ⟨.fresh true, []⟩ := LTS.Reachable.init ⟨true, rfl⟩
  have h1 := h0.step (Step.setMode (.inl rfl) rfl rfl true true .system (by decide))
  have h2 := h1.step (Step.start (.inl rfl) rfl rfl rfl .ring)
  have h3 := h2.step (Step.process rfl (by decide) .error)
  have h4 := h3.step (Step.ret [.again] rfl)
  have h5 := h4.step (Step.again [] rfl .system)
  refine ⟨_, h5, rfl, rfl, rfl, rfl, rfl, rfl, rfl, not_inv_of_count ?_⟩
  decide

/-- Reading a TCP stream is stopped in `alloc_cb`, and `WSARecv` meets the end of the stream: it is released twice. -/
theorem stop_in_alloc : ∃ s, (sys .tcp).Reachable s ∧ s.h.closing = false ∧ s.h.activecnt = -1 := by
  have h0 : (sys .tcp).Reachable ⟨.fresh true, []⟩ := LTS.Reachable.init ⟨true, rfl⟩
  have h1 := h0.step (Step.start (.inl rfl) rfl rfl rfl .ring)
  have h2 := h1.step (Step.process rfl (by decide) (.data true))
  have h3 := h2.step (Step.loop [] 32 rfl)
  have h4 := h3.step (Step.stop (.inr ⟨[.tcpAlloc 31], rfl⟩) rfl true)
  have h5 := h4.step (Step.ret [.tcpAlloc 31] rfl)
  have h6 := h5.step (Step.recv [] 31 rfl .eof)
  exact ⟨_, h6, rfl, rfl⟩

/-- Reading lines is stopped and started again in `alloc_cb`: two threads read for one request. -/
theorem twice_queued : ∃ s, (sys .tty).Reachable s ∧ s.h.outstanding = 2 := by
  have h0 : (sys .tty).Reachable ⟨.fresh true, []⟩ := LTS.Reachable.init ⟨true, rfl⟩
  have h1 := h0.step (Step.start (.inl rfl) rfl rfl rfl .system)
  have h2 := h1.step (Step.stop (.inr ⟨[.lineAlloc], rfl⟩) rfl true)
  have h3 := h2.step (Step.start (.inr ⟨[.lineAlloc], rfl⟩) rfl rfl rfl .system)
  have h4 := h3.step (Step.ret [.lineAlloc, .user, .lineAlloc] rfl)
  have h5 := h4.step (Step.lineAllocated [.user, .lineAlloc] rfl true .system)
  have h6 := h5.step (Step.ret [.lineAlloc] rfl)
  have h7 := h6.step (Step.lineAllocated [] rfl true .system)
  exact ⟨_, h7, rfl⟩

end Libuv.L5.ReadActive
