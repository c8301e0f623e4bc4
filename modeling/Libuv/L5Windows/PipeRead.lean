import Mathlib.Tactic
import Libuv.Core.LTS

/-!
# Reading frames from an IPC pipe on Windows (`win/pipe.c`)

The bytes on an IPC pipe are frames: a header of four words, a record of a transferred socket, and payload. When a
read of no bytes completes there is something in the pipe, and `uv__process_pipe_read_req` reads until it has as much
as was there or the user stops. `uv__pipe_read_ipc` reads a header, and the record behind it, at once, blocking for
what has not arrived; the payload in pieces of what `alloc_cb` gives and `ReadFile` returns, with
`payload_remaining` for what is missing.

`stream` holds the bytes the peer writes that are not read yet, of which `arrived` are in the pipe; `ReadFile` reads as
many of those as it likes, and fails when the stream is at its end. `delivered` and `appended` collect what `read_cb`
got and what was put into `ipc_xfer_queue`. User code runs in callbacks and between them.

* `ipc_read`: the results, for frames and for frames with an invalid header behind them.
* `remaining_in_callback`: in a callback `payload_remaining` still counts what is being delivered.
-/
namespace Libuv.L5.PipeRead

open List

/-! ## Frames -/

def UV_IPC_FRAME_HAS_DATA : BitVec 32 := 1

def UV_IPC_FRAME_HAS_SOCKET_XFER : BitVec 32 := 2

def UV_IPC_FRAME_XFER_IS_TCP_CONNECTION : BitVec 32 := 4

def UV_IPC_FRAME_XFER_FLAGS : BitVec 32 := 6

def UV_IPC_FRAME_VALID_FLAGS : BitVec 32 := 7

structure FrameHeader where
  flags : BitVec 32
  reserved1 : BitVec 32
  dataLength : BitVec 32
  reserved2 : BitVec 32
deriving DecidableEq

/-- `sizeof(uv__ipc_frame_header_t)` -/
def headerSize : ℕ := 16

/-- `sizeof(uv__ipc_socket_xfer_info_t)` -/
def xferInfoSize : ℕ := 632

def wordBytes (w : BitVec 32) : List UInt8 :=
  [.ofNat w.toNat, .ofNat (w.toNat / 256), .ofNat (w.toNat / 256 ^ 2), .ofNat (w.toNat / 256 ^ 3)]

def word (b : List UInt8) : BitVec 32 := .ofNat 32 (b.foldr (fun x n => x.toNat + 256 * n) 0)

def FrameHeader.bytes (h : FrameHeader) : List UInt8 :=
  wordBytes h.flags ++ wordBytes h.reserved1 ++ wordBytes h.dataLength ++ wordBytes h.reserved2

def frameHeader (b : List UInt8) : FrameHeader :=
  ⟨word (b.take 4), word ((b.drop 4).take 4), word ((b.drop 8).take 4), word ((b.drop 12).take 4)⟩

inductive XferType
  | none
  | tcpConnection
  | tcpServer
deriving DecidableEq

/-- What a header says: whether a socket comes, and what becomes of `payload_remaining`; nothing for an invalid one.
mirrors win/pipe.c:1928-1956 -/
def FrameHeader.parse (h : FrameHeader) (dataRemaining : ℕ) : Option (XferType × ℕ) :=
  if h.flags &&& ~~~ UV_IPC_FRAME_VALID_FLAGS ≠ 0 then none
  else if h.reserved2 ≠ 0 then none
  else
    let xferFlags := h.flags &&& UV_IPC_FRAME_XFER_FLAGS
    let data := if h.flags &&& UV_IPC_FRAME_HAS_DATA ≠ 0 then some h.dataLength.toNat
      else if h.dataLength ≠ 0 then none
      else some dataRemaining
    if xferFlags &&& UV_IPC_FRAME_HAS_SOCKET_XFER ≠ 0 then
      data.map fun n => (if xferFlags &&& UV_IPC_FRAME_XFER_IS_TCP_CONNECTION ≠ 0 then .tcpConnection else .tcpServer, n)
    else if xferFlags = 0 then data.map fun n => (.none, n)
    else none

/-- No unknown flag, no connection without a socket, no length without data. -/
structure FrameHeader.Valid (h : FrameHeader) : Prop where
  flags : h.flags &&& ~~~ UV_IPC_FRAME_VALID_FLAGS = 0
  reserved2 : h.reserved2 = 0
  xfer : h.flags &&& UV_IPC_FRAME_XFER_IS_TCP_CONNECTION ≠ 0 → h.flags &&& UV_IPC_FRAME_HAS_SOCKET_XFER ≠ 0
  data : h.flags &&& UV_IPC_FRAME_HAS_DATA = 0 → h.dataLength = 0

def FrameHeader.xferType (h : FrameHeader) : XferType :=
  if h.flags &&& UV_IPC_FRAME_HAS_SOCKET_XFER = 0 then .none
  else if h.flags &&& UV_IPC_FRAME_XFER_IS_TCP_CONNECTION = 0 then .tcpServer
  else .tcpConnection

structure Frame where
  header : FrameHeader
  xferInfo : List UInt8
  payload : List UInt8
  valid : header.Valid
  xfer_length : xferInfo.length = if header.xferType = .none then 0 else xferInfoSize
  payload_length : payload.length = header.dataLength.toNat

abbrev Record := XferType × List UInt8

def Frame.bytes (f : Frame) : List UInt8 := f.header.bytes ++ f.xferInfo ++ f.payload

def Frame.records (f : Frame) : List Record := if f.header.xferType = .none then [] else [(f.header.xferType, f.xferInfo)]

def encode (fs : List Frame) : List UInt8 := fs.flatMap Frame.bytes

def payloads (fs : List Frame) : List UInt8 := fs.flatMap Frame.payload

def records (fs : List Frame) : List Record := fs.flatMap Frame.records

/-! ## The handle -/

def ERROR_BROKEN_PIPE : ℕ := 109

def ERROR_OPERATION_ABORTED : ℕ := 995

def WSAECONNABORTED : ℕ := 10053

def UV_EOF : ℤ := -4095

def UV_ENOBUFS : ℤ := -4060

def UV_ECONNABORTED : ℤ := -4079

/-- `uv_translate_sys_error`: the entry of its table that the decoder itself needs, and `table` for the others.
mirrors win/error.c:67-174 -/
def translateSysError (table : ℕ → ℤ) (e : ℕ) : ℤ := if e = WSAECONNABORTED then UV_ECONNABORTED else table e

/-- Where the loop is in `uv__process_pipe_read_req`; `avail` is what is left of what was there. -/
inductive Pc
  | idle
  | loop (avail : ℕ)
  | alloc (avail : ℕ)
  /-- `ReadFile` into the buffer of the user, at most so many bytes -/
  | data (avail max : ℕ)
  /-- `uv__pipe_read_exactly`, which has got a part -/
  | header (avail : ℕ) (got : List UInt8)
  | xfer (avail : ℕ) (type : XferType) (got : List UInt8)
  /-- `read_cb`, with so many bytes of payload -/
  | callback (avail bytes : ℕ)
  /-- `read_cb`, with an error -/
  | errorCallback
deriving DecidableEq

structure Handle where
  reading : Bool
  readPending : Bool
  cancellationPending : Bool
  payloadRemaining : ℕ
  ipcXferQueue : List Record
  ipcXferQueueLength : ℕ
  pc : Pc
  stream : List UInt8
  arrived : ℕ
  delivered : List UInt8
  appended : List Record
  /-- the errors `read_cb` got -/
  errors : List ℤ
  /-- there was an invalid header -/
  aborted : Bool
  /-- the user started again all the same -/
  restarted : Bool
deriving DecidableEq

def uint32 : ℕ := 2 ^ 32

namespace Handle
variable (h : Handle)

/-- `uv__pipe_queue_read`, if there is no request. -/
def queueRead : Handle := if h.readPending then h else { h with readPending := true }

/-- mirrors win/pipe.c:1373-1397 -/
def readStart : Handle :=
  if h.reading then h else { h with reading := true, restarted := h.restarted || h.aborted }.queueRead

/-- `uv__pipe_interrupt_read`: an `ERROR_OPERATION_ABORTED` is on its way.
mirrors win/pipe.c:925-970 -/
def interruptRead : Handle :=
  if !h.readPending then h
  else if h.cancellationPending then h
  else { h with cancellationPending := true }

/-- mirrors win/stream.c:92-109, pipe.c:973-978 -/
def readStop : Handle := if h.reading then { h with reading := false }.interruptRead else h

/-- Another zero-read, and back to the loop.
mirrors win/pipe.c:2043-2048 -/
def finish : Handle := { (if h.reading then h.queueRead else h) with pc := .idle }

/-- Is there more, or was more read than there was?
mirrors win/pipe.c:2028-2041 -/
def continueWith (avail bytesRead : ℕ) : Handle :=
  if bytesRead = 0 then h.finish
  else if avail < bytesRead then h.finish
  else { h with pc := .loop (avail - bytesRead) }

/-- `uv__pipe_read_error_or_eof`, up to the callback.
mirrors win/pipe.c:1793-1824 -/
def readErrorOrEof (table : ℕ → ℤ) (e : ℕ) : Handle :=
  let h := h.readStop
  { h with errors := h.errors ++ [if e = ERROR_BROKEN_PIPE then UV_EOF else translateSysError table e], pc := .errorCallback }

/-- `uv__pipe_queue_ipc_xfer_info`
mirrors win/pipe.c:1827-1843 -/
def queueIpcXferInfo (r : Record) : Handle :=
  { h with ipcXferQueue := h.ipcXferQueue ++ [r], ipcXferQueueLength := h.ipcXferQueueLength + 1, appended := h.appended ++ [r] }

/-- The head of the loop, and the choice of `uv__pipe_read_ipc`.
mirrors win/pipe.c:2022-2026, 1904-1918 -/
def iterate (avail : ℕ) : Handle :=
  if 0 < avail ∧ h.reading = true then
    if 0 < h.payloadRemaining then { h with pc := .alloc avail } else { h with pc := .header avail [] }
  else h.finish

/-- `alloc_cb` returns a buffer.
mirrors win/pipe.c:1876-1889 -/
def allocated (avail len : ℕ) : Handle :=
  if len = 0 then { h with errors := h.errors ++ [UV_ENOBUFS], pc := .callback avail 0 }
  else { h with pc := .data avail (if len < h.payloadRemaining then len else h.payloadRemaining) }

/-- The header is there.
mirrors win/pipe.c:1922-1962, 1975-1982 -/
def gotHeader (table : ℕ → ℤ) (avail : ℕ) (b : List UInt8) : Handle :=
  match (frameHeader b).parse h.payloadRemaining with
  | none => { h.readErrorOrEof table WSAECONNABORTED with aborted := true }
  | some (.none, n) => { h with payloadRemaining := n }.continueWith avail headerSize
  | some (type, n) => { h with payloadRemaining := n, pc := .xfer avail type [] }

/-- The record is there.
mirrors win/pipe.c:1964-1973 -/
def gotXferInfo (avail : ℕ) (type : XferType) (b : List UInt8) : Handle :=
  (h.queueIpcXferInfo (type, b)).continueWith avail (headerSize + xferInfoSize)

/-- `ReadFile` reads so many bytes.
mirrors win/pipe.c:1848-1865, 1891-1898 -/
def readFile (table : ℕ → ℤ) (n : ℕ) : Handle :=
  let b := h.stream.take n
  let h := { h with stream := h.stream.drop n, arrived := h.arrived - n }
  match h.pc with
  | .header avail got =>
    if (got ++ b).length < headerSize then { h with pc := .header avail (got ++ b) } else h.gotHeader table avail (got ++ b)
  | .xfer avail type got =>
    if (got ++ b).length < xferInfoSize then { h with pc := .xfer avail type (got ++ b) } else h.gotXferInfo avail type (got ++ b)
  | .data avail _ => { h with delivered := h.delivered ++ b, pc := .callback avail n }
  | _ => h

/-- How many bytes `ReadFile` is asked for. -/
def wants : Option ℕ :=
  match h.pc with
  | .header _ got => some (headerSize - got.length)
  | .xfer _ _ got => some (xferInfoSize - got.length)
  | .data _ max => some max
  | _ => none

/-- The callback returns.
mirrors win/pipe.c:1900-1901, 1908-1913 -/
def returned : Handle :=
  match h.pc with
  | .callback avail n =>
    { h with payloadRemaining := (h.payloadRemaining + (uint32 - n)) % uint32 }.continueWith avail n
  | _ => h.finish

/-- The head of the queue goes to `uv_accept`. -/
def accept : Handle :=
  match h.ipcXferQueue with
  | [] => h
  | _ :: q => { h with ipcXferQueue := q, ipcXferQueueLength := h.ipcXferQueueLength - 1 }

/-- User code is running, or other code of the loop. -/
def inUser : Bool :=
  match h.pc with
  | .idle | .alloc _ | .callback _ _ | .errorCallback => true
  | _ => false

end Handle

/-! ## The system -/

/-- How the zero-read ended, and then `PeekNamedPipe`. -/
inductive ZeroRead
  | success
  | peekError (e : ℕ)
  | error (e : ℕ)
deriving DecidableEq

inductive Label
  /-- bytes arrive in the pipe -/
  | arrive (n : ℕ)
  /-- the loop takes the zero-read -/
  | process (r : ZeroRead)
  | iterate
  | alloc (len : ℕ)
  | readFile (n : ℕ)
  | readFileError (e : ℕ)
  | ret
  | start
  | stop
  | accept
deriving DecidableEq

/-- mirrors win/pipe.c:1985-2018 -/
def Handle.process (h : Handle) (table : ℕ → ℤ) (r : ZeroRead) : Handle :=
  let h := { h with readPending := false, cancellationPending := false }
  if h.reading then
    match r with
    | .success => { h with pc := .loop h.arrived }
    | .peekError e => h.readErrorOrEof table e
    | .error e => if e = ERROR_OPERATION_ABORTED then h.finish else h.readErrorOrEof table e
  else h

def enabled (h : Handle) : Label → Prop
  | .arrive n => h.arrived + n ≤ h.stream.length
  | .process _ => h.pc = .idle ∧ h.readPending = true
  | .iterate => ∃ avail, h.pc = .loop avail
  | .alloc _ => ∃ avail, h.pc = .alloc avail
  | .readFile n => n ≤ h.arrived ∧ ∃ m, h.wants = some m ∧ n ≤ m
  | .readFileError _ => h.wants ≠ none ∧ h.stream = []
  | .ret => h.pc = .errorCallback ∨ ∃ avail n, h.pc = .callback avail n
  | .start | .stop | .accept => h.inUser = true

def step (table : ℕ → ℤ) (h : Handle) : Label → Handle
  | .arrive n => { h with arrived := h.arrived + n }
  | .process r => h.process table r
  | .iterate =>
    match h.pc with
    | .loop avail => h.iterate avail
    | _ => h
  | .alloc len =>
    match h.pc with
    | .alloc avail => h.allocated avail len
    | _ => h
  | .readFile n => h.readFile table n
  | .readFileError e => h.readErrorOrEof table e
  | .ret => h.returned
  | .start => h.readStart
  | .stop => h.readStop
  | .accept => h.accept

def initial (bytes : List UInt8) : Handle :=
  ⟨false, false, false, 0, [], 0, .idle, bytes, 0, [], [], [], false, false⟩

def system (table : ℕ → ℤ) (bytes : List UInt8) : LTS Handle Label where
  init h := h = initial bytes
  step h l t := enabled h l ∧ step table h l = t

/-! ## The header -/

theorem word_wordBytes (w : BitVec 32) : word (wordBytes w) = w := by
  apply BitVec.eq_of_toNat_eq
  simp only [word, wordBytes, foldr_cons, foldr_nil, UInt8.toNat_ofNat', BitVec.toNat_ofNat]
  omega

@[simp] theorem wordBytes_length (w : BitVec 32) : (wordBytes w).length = 4 := rfl

@[simp] theorem FrameHeader.bytes_length (h : FrameHeader) : h.bytes.length = headerSize := rfl

theorem frameHeader_bytes (h : FrameHeader) : frameHeader h.bytes = h := by
  have e : frameHeader h.bytes =
      ⟨word (wordBytes h.flags), word (wordBytes h.reserved1), word (wordBytes h.dataLength), word (wordBytes h.reserved2)⟩ := rfl
  rw [e]
  simp [word_wordBytes]

theorem xferFlags_eq_zero (w : BitVec 32) : w &&& UV_IPC_FRAME_XFER_FLAGS = 0 ↔
    w &&& UV_IPC_FRAME_HAS_SOCKET_XFER = 0 ∧ w &&& UV_IPC_FRAME_XFER_IS_TCP_CONNECTION = 0 := by
  have e : w &&& UV_IPC_FRAME_XFER_FLAGS =
      (w &&& UV_IPC_FRAME_HAS_SOCKET_XFER) ||| (w &&& UV_IPC_FRAME_XFER_IS_TCP_CONNECTION) := by
    rw [← BitVec.and_or_distrib_left]
    rfl
  rw [e]
  exact BitVec.or_eq_zero_iff

theorem xferFlags_and (w : BitVec 32) :
    w &&& UV_IPC_FRAME_XFER_FLAGS &&& UV_IPC_FRAME_HAS_SOCKET_XFER = w &&& UV_IPC_FRAME_HAS_SOCKET_XFER ∧
    w &&& UV_IPC_FRAME_XFER_FLAGS &&& UV_IPC_FRAME_XFER_IS_TCP_CONNECTION = w &&& UV_IPC_FRAME_XFER_IS_TCP_CONNECTION := by
  rw [BitVec.and_assoc, BitVec.and_assoc]
  exact ⟨rfl, rfl⟩

theorem parse_valid {h : FrameHeader} (hv : h.Valid) : h.parse 0 = some (h.xferType, h.dataLength.toNat) := by
  obtain ⟨e2, e4⟩ := xferFlags_and h.flags
  have hdata : (if h.flags &&& UV_IPC_FRAME_HAS_DATA ≠ 0 then some h.dataLength.toNat
      else if h.dataLength ≠ 0 then none else some 0) = some h.dataLength.toNat := by
    by_cases hd : h.flags &&& UV_IPC_FRAME_HAS_DATA = 0
    · rw [if_neg (not_not_intro hd), hv.data hd]
      rfl
    · exact if_pos hd
  unfold FrameHeader.parse FrameHeader.xferType
  rw [if_neg (not_not_intro hv.flags), if_neg (not_not_intro hv.reserved2)]
  simp only [hdata, e2, e4, Option.map_some]
  by_cases hs : h.flags &&& UV_IPC_FRAME_HAS_SOCKET_XFER = 0
  · have ht : h.flags &&& UV_IPC_FRAME_XFER_IS_TCP_CONNECTION = 0 := by
      by_contra ht
      exact hv.xfer ht hs
    rw [if_neg (not_not_intro hs), if_pos ((xferFlags_eq_zero _).2 ⟨hs, ht⟩), if_pos hs]
  · rw [if_pos hs, if_neg hs]
    by_cases ht : h.flags &&& UV_IPC_FRAME_XFER_IS_TCP_CONNECTION = 0
    · rw [if_neg (not_not_intro ht), if_pos ht]
    · rw [if_pos ht, if_neg ht]

theorem parse_invalid {h : FrameHeader} (hv : ¬ h.Valid) (n : ℕ) : h.parse n = none := by
  obtain ⟨e2, e4⟩ := xferFlags_and h.flags
  unfold FrameHeader.parse
  by_cases hf : h.flags &&& ~~~ UV_IPC_FRAME_VALID_FLAGS = 0
  · by_cases hr : h.reserved2 = 0
    · rw [if_neg (not_not_intro hf), if_neg (not_not_intro hr)]
      simp only [e2, xferFlags_eq_zero]
      by_cases hd : h.flags &&& UV_IPC_FRAME_HAS_DATA = 0 ∧ h.dataLength ≠ 0
      · rw [if_neg (not_not_intro hd.1), if_pos hd.2]
        simp
      · have hs : h.flags &&& UV_IPC_FRAME_HAS_SOCKET_XFER = 0 ∧ h.flags &&& UV_IPC_FRAME_XFER_IS_TCP_CONNECTION ≠ 0 := by
          by_contra hs
          refine hv ⟨hf, hr, fun ht h0 => hs ⟨h0, ht⟩, fun h0 => ?_⟩
          by_contra h1
          exact hd ⟨h0, h1⟩
        rw [if_neg (not_not_intro hs.1), if_neg fun hh => hs.2 hh.2]
    · rw [if_neg (not_not_intro hf), if_pos hr]
  · exact if_pos hf

/-! ## Operations -/

variable {h t : Handle} {table : ℕ → ℤ}

/-- What was read, and what became of it, is the same. -/
structure Same (h t : Handle) : Prop where
  stream : t.stream = h.stream
  arrived : t.arrived = h.arrived
  remaining : t.payloadRemaining = h.payloadRemaining
  queue : t.ipcXferQueue = h.ipcXferQueue
  queueLength : t.ipcXferQueueLength = h.ipcXferQueueLength
  delivered : t.delivered = h.delivered
  appended : t.appended = h.appended
  aborted : t.aborted = h.aborted

theorem Same.trans {u : Handle} (h1 : Same h t) (h2 : Same t u) : Same h u :=
  ⟨h2.stream.trans h1.stream, h2.arrived.trans h1.arrived, h2.remaining.trans h1.remaining, h2.queue.trans h1.queue,
    h2.queueLength.trans h1.queueLength, h2.delivered.trans h1.delivered, h2.appended.trans h1.appended,
    h2.aborted.trans h1.aborted⟩

theorem readStop_spec (h : Handle) : Same h h.readStop ∧ h.readStop.pc = h.pc ∧ h.readStop.reading = false ∧
    h.readStop.errors = h.errors ∧ h.readStop.restarted = h.restarted := by
  unfold Handle.readStop Handle.interruptRead
  split_ifs with hr <;> refine ⟨⟨rfl, rfl, rfl, rfl, rfl, rfl, rfl, rfl⟩, rfl, ?_, rfl, rfl⟩ <;> simp [hr]

theorem readStart_spec (h : Handle) : Same h h.readStart ∧ h.readStart.pc = h.pc ∧ h.readStart.reading = true ∧
    h.readStart.errors = h.errors ∧ h.readStart.restarted = (h.restarted || (!h.reading && h.aborted)) ∧
    (h.reading = false → h.readStart.readPending = true) := by
  unfold Handle.readStart Handle.queueRead
  split_ifs with hr hp <;> refine ⟨⟨rfl, rfl, rfl, rfl, rfl, rfl, rfl, rfl⟩, rfl, ?_, rfl, ?_, ?_⟩ <;> simp_all

theorem finish_spec (h : Handle) : Same h h.finish ∧ h.finish.pc = .idle ∧ h.finish.reading = h.reading ∧
    h.finish.errors = h.errors ∧ h.finish.restarted = h.restarted ∧ (h.reading = true → h.finish.readPending = true) := by
  unfold Handle.finish Handle.queueRead
  split_ifs with hr hp <;> refine ⟨⟨rfl, rfl, rfl, rfl, rfl, rfl, rfl, rfl⟩, rfl, rfl, rfl, rfl, ?_⟩ <;> simp_all

/-- No part of a header or a record is read, and no payload is being delivered. -/
def Pc.Plain : Pc → Prop
  | .idle | .loop _ | .alloc _ | .errorCallback => True
  | _ => False

theorem continueWith_spec (h : Handle) (avail n : ℕ) : Same h (h.continueWith avail n) ∧
    (h.continueWith avail n).pc.Plain ∧ (h.continueWith avail n).errors = h.errors ∧
    (h.continueWith avail n).restarted = h.restarted ∧
    ((h.continueWith avail n).pc = .idle → (h.continueWith avail n).reading = true →
      (h.continueWith avail n).readPending = true) := by
  obtain ⟨h1, h2, h3, h4, h5, h6⟩ := finish_spec h
  have hfin : Same h h.finish ∧ h.finish.pc.Plain ∧ h.finish.errors = h.errors ∧ h.finish.restarted = h.restarted ∧
      (h.finish.pc = .idle → h.finish.reading = true → h.finish.readPending = true) :=
    ⟨h1, by rw [h2]; trivial, h4, h5, fun _ hr => h6 (h3 ▸ hr)⟩
  unfold Handle.continueWith
  split_ifs
  · exact hfin
  · exact hfin
  · exact ⟨⟨rfl, rfl, rfl, rfl, rfl, rfl, rfl, rfl⟩, trivial, rfl, rfl, by simp⟩

theorem readErrorOrEof_spec (table : ℕ → ℤ) (h : Handle) (e : ℕ) : Same h (h.readErrorOrEof table e) ∧
    (h.readErrorOrEof table e).pc = .errorCallback ∧ (h.readErrorOrEof table e).reading = false ∧
    (h.readErrorOrEof table e).restarted = h.restarted ∧
    (h.readErrorOrEof table e).errors = h.errors ++ [if e = ERROR_BROKEN_PIPE then UV_EOF else translateSysError table e] := by
  obtain ⟨h1, -, h3, h4, h5⟩ := readStop_spec h
  exact ⟨⟨h1.stream, h1.arrived, h1.remaining, h1.queue, h1.queueLength, h1.delivered, h1.appended, h1.aborted⟩, rfl, h3, h5,
    congrArg (· ++ _) h4⟩

/-! ## The position in the frames -/

/-- What is unread, but for the header or the record that is being read. -/
def Handle.unread (h : Handle) : List UInt8 :=
  match h.pc with
  | .header _ got => got ++ h.stream
  | .xfer _ _ got => (got ++ h.stream).drop xferInfoSize
  | _ => h.stream

/-- The records, with the one that is being read. -/
def Handle.announced (h : Handle) : List Record :=
  match h.pc with
  | .xfer _ type got => h.appended ++ [(type, (got ++ h.stream).take xferInfoSize)]
  | _ => h.appended

/-- The bytes that `read_cb` is given. -/
def Handle.passing (h : Handle) : ℕ :=
  match h.pc with
  | .callback _ n => n
  | _ => 0

/-- The bounds of the reads; a record is read before the payload. -/
def Handle.Bounded (h : Handle) (pre : List Frame) (p : List UInt8) : Prop :=
  match h.pc with
  | .data _ max => max ≤ p.length
  | .header _ got => got.length < headerSize ∧ p = []
  | .xfer _ _ got => got.length < xferInfoSize ∧ xferInfoSize ≤ (got ++ h.stream).length ∧
      ∃ q f, pre = q ++ [f] ∧ p = f.payload ∧ h.appended = records q
  | _ => True

/-- The headers of `pre` are read, and of the last of these frames the payload `p` is left. -/
structure Position (frames : List Frame) (tail : List UInt8) (h : Handle) (pre post : List Frame) (p : List UInt8) : Prop where
  frames : frames = pre ++ post
  current : p <:+ (pre.getLast?.map Frame.payload).getD []
  delivered : h.delivered ++ p = payloads pre
  announced : h.announced = records pre
  unread : h.unread = p ++ encode post ++ tail
  remaining : h.payloadRemaining = p.length + h.passing
  small : h.payloadRemaining < uint32
  bounded : h.Bounded pre p

variable {frames pre post : List Frame} {tail p : List UInt8}

theorem Pc.Plain.view (hp : h.pc.Plain) (pre : List Frame) (p : List UInt8) :
    h.unread = h.stream ∧ h.announced = h.appended ∧ h.passing = 0 ∧ h.Bounded pre p := by
  unfold Handle.unread Handle.announced Handle.passing Handle.Bounded
  cases hpc : h.pc <;> rw [hpc] at hp <;> first | exact ⟨rfl, rfl, rfl, trivial⟩ | exact hp.elim

theorem Position.of_plain (hp : h.pc.Plain) (hf : frames = pre ++ post) (hc : p <:+ (pre.getLast?.map Frame.payload).getD [])
    (hd : h.delivered ++ p = payloads pre) (hr : h.appended = records pre) (hu : h.stream = p ++ encode post ++ tail)
    (hn : h.payloadRemaining = p.length) (hs : h.payloadRemaining < uint32) : Position frames tail h pre post p := by
  obtain ⟨h1, h2, h3, h4⟩ := hp.view pre p
  exact ⟨hf, hc, hd, h2.trans hr, h1.trans hu, by rw [hn, h3, Nat.add_zero], hs, h4⟩

theorem Position.congr (hpos : Position frames tail h pre post p) (hs : Same h t) (hpc : t.pc = h.pc) :
    Position frames tail t pre post p := by
  have h1 : t.unread = h.unread := by
    unfold Handle.unread
    rw [hpc, hs.stream]
  have h2 : t.announced = h.announced := by
    unfold Handle.announced
    rw [hpc, hs.stream, hs.appended]
  have h3 : t.passing = h.passing := by
    unfold Handle.passing
    rw [hpc]
  have h4 : t.Bounded pre p ↔ h.Bounded pre p := by
    unfold Handle.Bounded
    rw [hpc, hs.stream, hs.appended]
  exact ⟨hpos.frames, hpos.current, hs.delivered ▸ hpos.delivered, h2.trans hpos.announced, h1.trans hpos.unread,
    by rw [hs.remaining, h3, hpos.remaining], hs.remaining ▸ hpos.small, h4.2 hpos.bounded⟩

theorem Position.plain (hpos : Position frames tail h pre post p) (hs : Same h t) (hh : h.pc.Plain) (ht : t.pc.Plain) :
    Position frames tail t pre post p := by
  obtain ⟨h1, h2, h3, -⟩ := hh.view pre p
  refine .of_plain ht hpos.frames hpos.current (hs.delivered ▸ hpos.delivered) ?_ ?_ ?_ (hs.remaining ▸ hpos.small)
  · rw [hs.appended, ← h2, hpos.announced]
  · rw [hs.stream, ← h1, hpos.unread]
  · rw [hs.remaining, hpos.remaining, h3, Nat.add_zero]

/-- An invalid header was read behind the frames. -/
structure Stopped (frames : List Frame) (tail : List UInt8) (h : Handle) : Prop where
  tail : tail ≠ []
  aborted : h.aborted = true
  reading : h.reading = false
  pc : h.pc = .idle ∨ h.pc = .errorCallback
  delivered : h.delivered = payloads frames
  appended : h.appended = records frames
  remaining : h.payloadRemaining = 0
  errors : h.errors.getLast? = some UV_ECONNABORTED

def Good (frames : List Frame) (tail : List UInt8) (h : Handle) : Prop :=
  (h.aborted = false ∧ ∃ pre post p, Position frames tail h pre post p) ∨ Stopped frames tail h

def Ends (tail : List UInt8) : Prop := tail = [] ∨ headerSize ≤ tail.length ∧ ¬ (frameHeader (tail.take headerSize)).Valid

theorem encode_cons (f : Frame) (fs : List Frame) :
    encode (f :: fs) = f.header.bytes ++ (f.xferInfo ++ (f.payload ++ encode fs)) := by
  simp [encode, Frame.bytes]

theorem payloads_concat (fs : List Frame) (f : Frame) : payloads (fs ++ [f]) = payloads fs ++ f.payload := by
  simp [payloads]

theorem records_concat (fs : List Frame) (f : Frame) : records (fs ++ [f]) = records fs ++ f.records := by
  simp [records]

theorem continueWith_good (hf : frames = pre ++ post) (hc : p <:+ (pre.getLast?.map Frame.payload).getD [])
    (hd : h.delivered ++ p = payloads pre) (hr : h.appended = records pre) (hu : h.stream = p ++ encode post ++ tail)
    (hn : h.payloadRemaining = p.length) (hs : h.payloadRemaining < uint32) (hab : h.aborted = false) (avail n : ℕ) :
    Good frames tail (h.continueWith avail n) := by
  obtain ⟨h1, h2, -⟩ := continueWith_spec h avail n
  exact .inl ⟨h1.aborted.trans hab, pre, post, p, .of_plain h2 hf hc (by rw [h1.delivered, hd]) (h1.appended.trans hr)
    (h1.stream.trans hu) (h1.remaining.trans hn) (h1.remaining.trans_lt hs)⟩

theorem gotHeader_spec (ht : Ends tail) (hf : frames = pre ++ post) (hd : h.delivered = payloads pre)
    (hr : h.appended = records pre) (h0 : h.payloadRemaining = 0) (hab : h.aborted = false) {b : List UInt8}
    (hb : b.length = headerSize) (hu : b ++ h.stream = encode post ++ tail) (avail : ℕ) :
    Good frames tail (h.gotHeader table avail b) := by
  unfold Handle.gotHeader
  rw [h0]
  cases post with
  | nil =>
    have htail : tail = b ++ h.stream := by rw [hu]; rfl
    have hbad : ¬ (frameHeader b).Valid := by
      rcases ht with rfl | ⟨-, ht⟩
      · have := congrArg List.length htail
        simp only [length_nil, length_append, hb, headerSize] at this
        omega
      · rwa [htail, take_left' hb] at ht
    rw [parse_invalid hbad]
    obtain ⟨h1, h2, h3, -, h5⟩ := readErrorOrEof_spec table h WSAECONNABORTED
    have hne : tail ≠ [] := by
      rw [htail]
      exact append_ne_nil_of_left_ne_nil (ne_nil_of_length_pos (by rw [hb]; decide)) _
    rw [append_nil] at hf
    refine .inr ⟨hne, rfl, h3, .inr h2, ?_, ?_, h1.remaining.trans h0, ?_⟩
    · exact h1.delivered.trans (hf ▸ hd)
    · exact h1.appended.trans (hf ▸ hr)
    · show (h.readErrorOrEof table WSAECONNABORTED).errors.getLast? = _
      rw [h5, getLast?_append]
      rfl
  | cons f fs =>
    rw [encode_cons, append_assoc] at hu
    obtain ⟨rfl, hrest⟩ := append_inj hu hb
    rw [frameHeader_bytes, parse_valid f.valid]
    have hlast : f.payload <:+ ((pre ++ [f]).getLast?.map Frame.payload).getD [] := by simp
    have hframes : frames = pre ++ [f] ++ fs := by rw [hf, append_assoc]; rfl
    have hlen := f.xfer_length
    have hdel : h.delivered ++ f.payload = payloads (pre ++ [f]) := by rw [hd, payloads_concat]
    cases hx : f.header.xferType with
    | none =>
      rw [hx] at hlen
      have happ : h.appended = records (pre ++ [f]) := by
        rw [records_concat, ← hr, Frame.records, if_pos hx, append_nil]
      have hstream : h.stream = f.payload ++ encode fs ++ tail := by
        rw [hrest, length_eq_zero_iff.1 hlen, nil_append]
      exact continueWith_good (h := { h with payloadRemaining := f.header.dataLength.toNat }) hframes hlast hdel happ hstream
        f.payload_length.symm f.header.dataLength.isLt hab avail headerSize
    | tcpConnection | tcpServer =>
      rw [hx, if_neg (by decide)] at hlen
      refine .inl ⟨hab, pre ++ [f], fs, f.payload, ⟨hframes, hlast, hdel, ?_, ?_, ?_, ?_, ?_, ?_⟩⟩
      · simp only [Handle.announced, nil_append, hrest, records_concat, Frame.records, hx, hr, append_assoc,
          take_left' hlen]
        simp
      · simp [Handle.unread, hrest, drop_left' hlen]
      · simp [Handle.passing, f.payload_length]
      · exact f.header.dataLength.isLt
      · decide
      · refine ⟨?_, pre, f, rfl, rfl, hr⟩
        simp only [nil_append, hrest, length_append, hlen]
        omega

theorem gotXferInfo_spec (hf : frames = pre ++ post) (hc : p <:+ (pre.getLast?.map Frame.payload).getD [])
    (hd : h.delivered ++ p = payloads pre) {type : XferType} {b : List UInt8} (hr : h.appended ++ [(type, b)] = records pre)
    (hu : h.stream = p ++ encode post ++ tail) (hn : h.payloadRemaining = p.length) (hs : h.payloadRemaining < uint32)
    (hab : h.aborted = false) (avail : ℕ) : Good frames tail (h.gotXferInfo avail type b) :=
  continueWith_good (h := h.queueIpcXferInfo (type, b)) hf hc hd hr hu hn hs hab avail (headerSize + xferInfoSize)

theorem append_read (got l : List UInt8) (n : ℕ) : got ++ l.take n ++ l.drop n = got ++ l := by
  rw [append_assoc, take_append_drop]

theorem readFile_good (ht : Ends tail) (hpos : Position frames tail h pre post p) (hab : h.aborted = false) {n m : ℕ}
    (hn : n ≤ h.stream.length) (hw : h.wants = some m) (hm : n ≤ m) : Good frames tail (h.readFile table n) := by
  obtain ⟨hf, hc, hd, ha, hu, hr, hs, hb⟩ := hpos
  have hlen : (h.stream.take n).length = n := length_take_of_le hn
  unfold Handle.readFile
  cases hpc : h.pc with
  | header avail got =>
    simp only [Handle.wants, hpc, Option.some.injEq] at hw
    simp only [Handle.announced, hpc] at ha
    simp only [Handle.unread, hpc] at hu
    simp only [Handle.passing, hpc] at hr
    simp only [Handle.Bounded, hpc] at hb
    obtain ⟨hg, rfl⟩ := hb
    rw [← append_read got h.stream n] at hu
    dsimp only
    split_ifs with hlt
    · exact .inl ⟨hab, pre, post, [], ⟨hf, hc, hd, ha, hu, hr, hs, hlt, rfl⟩⟩
    · rw [append_nil] at hd
      have hfull : (got ++ h.stream.take n).length = headerSize := by
        rw [length_append] at hlt ⊢
        omega
      exact gotHeader_spec (h := { h with pc := .header avail got, stream := h.stream.drop n, arrived := h.arrived - n })
        ht hf hd ha hr hab hfull hu avail
  | xfer avail type got =>
    simp only [Handle.wants, hpc, Option.some.injEq] at hw
    simp only [Handle.announced, hpc] at ha
    simp only [Handle.unread, hpc] at hu
    simp only [Handle.passing, hpc] at hr
    simp only [Handle.Bounded, hpc] at hb
    obtain ⟨hg, hg', hq⟩ := hb
    rw [← append_read got h.stream n] at hu ha hg'
    dsimp only
    split_ifs with hlt
    · exact .inl ⟨hab, pre, post, p, ⟨hf, hc, hd, ha, hu, hr, hs, hlt, hg', hq⟩⟩
    · have hfull : (got ++ h.stream.take n).length = xferInfoSize := by
        rw [length_append] at hlt ⊢
        omega
      rw [drop_left' hfull] at hu
      rw [take_left' hfull] at ha
      exact gotXferInfo_spec (h := { h with pc := .xfer avail type got, stream := h.stream.drop n, arrived := h.arrived - n })
        hf hc hd ha hu hr hs hab avail
  | data avail max =>
    simp only [Handle.wants, hpc, Option.some.injEq] at hw
    simp only [Handle.announced, hpc] at ha
    simp only [Handle.unread, hpc] at hu
    simp only [Handle.passing, hpc] at hr
    simp only [Handle.Bounded, hpc] at hb
    have hnp : n ≤ p.length := by omega
    have htake : h.stream.take n = p.take n := by rw [hu, append_assoc, take_append_of_le_length hnp]
    have hdrop : h.stream.drop n = p.drop n ++ encode post ++ tail := by
      rw [hu, append_assoc, drop_append_of_le_length hnp, append_assoc]
    refine .inl ⟨hab, pre, post, p.drop n, ⟨hf, (drop_suffix n p).trans hc, ?_, ha, hdrop, ?_, hs, trivial⟩⟩
    · show h.delivered ++ h.stream.take n ++ p.drop n = payloads pre
      rw [htake, append_assoc, take_append_drop, hd]
    · show h.payloadRemaining = (p.drop n).length + n
      rw [length_drop]
      omega
  | _ => simp [Handle.wants, hpc] at hw

theorem returned_good (hg : Good frames tail h) (hpc : h.pc = .errorCallback ∨ ∃ avail n, h.pc = .callback avail n) :
    Good frames tail h.returned := by
  unfold Handle.returned
  rcases hpc with hpc | ⟨avail, n, hpc⟩
  · rw [hpc]
    obtain ⟨h1, h2, h3, h4, h5, -⟩ := finish_spec h
    rcases hg with ⟨hab, pre, post, p, hpos⟩ | hg
    · exact .inl ⟨h1.aborted.trans hab, pre, post, p, hpos.plain h1 (by rw [hpc]; trivial) (by rw [h2]; trivial)⟩
    · exact .inr ⟨hg.tail, h1.aborted.trans hg.aborted, h3.trans hg.reading, .inl h2, h1.delivered.trans hg.delivered,
        h1.appended.trans hg.appended, h1.remaining.trans hg.remaining, h4 ▸ hg.errors⟩
  · rcases hg with ⟨hab, pre, post, p, hpos⟩ | hg
    · obtain ⟨hf, hc, hd, ha, hu, hr, hs, -⟩ := hpos
      simp only [Handle.announced, hpc] at ha
      simp only [Handle.unread, hpc] at hu
      simp only [Handle.passing, hpc] at hr
      have hmod : (h.payloadRemaining + (uint32 - n)) % uint32 = p.length := by
        have e : h.payloadRemaining + (uint32 - n) = p.length + uint32 := by omega
        rw [e, Nat.add_mod_right, Nat.mod_eq_of_lt (by omega)]
      rw [hpc]
      exact continueWith_good
        (h := { h with pc := .callback avail n, payloadRemaining := (h.payloadRemaining + (uint32 - n)) % uint32 })
        hf hc hd ha hu hmod (Nat.mod_lt _ (by decide)) hab avail n
    · rcases hg.pc with hh | hh <;> rw [hpc] at hh <;> cases hh

theorem encode_short (ht : Ends tail) (hl : (encode post ++ tail).length < headerSize) : post = [] ∧ tail = [] := by
  rw [length_append] at hl
  refine ⟨?_, ht.resolve_right fun h => by omega⟩
  cases post with
  | nil => rfl
  | cons f fs =>
    rw [encode_cons, length_append, FrameHeader.bytes_length] at hl
    omega

theorem Position.exhausted (hpos : Position frames tail h pre post p) (ht : Ends tail) (hs : h.stream = []) :
    p = [] ∧ post = [] ∧ tail = [] ∧ h.appended = records pre := by
  obtain ⟨hf, hc, hd, ha, hu, hr, hsm, hb⟩ := hpos
  have hnil (hu : [] = p ++ encode post ++ tail) : p = [] ∧ post = [] ∧ tail = [] := by
    rw [append_assoc] at hu
    obtain ⟨hp, hu⟩ := append_eq_nil_iff.1 hu.symm
    exact ⟨hp, encode_short ht (by rw [hu]; decide)⟩
  cases hpc : h.pc with
  | header avail got =>
    simp only [Handle.announced, hpc] at ha
    simp only [Handle.unread, hpc, hs, append_nil] at hu
    simp only [Handle.Bounded, hpc] at hb
    obtain ⟨hg, rfl⟩ := hb
    have hshort : (encode post ++ tail).length < headerSize := by rwa [hu] at hg
    obtain ⟨h1, h2⟩ := encode_short ht hshort
    exact ⟨rfl, h1, h2, ha⟩
  | xfer avail type got =>
    simp only [Handle.Bounded, hpc, hs, append_nil] at hb
    omega
  | _ =>
    simp only [Handle.announced, hpc] at ha
    simp only [Handle.unread, hpc, hs] at hu
    obtain ⟨h1, h2, h3⟩ := hnil hu
    exact ⟨h1, h2, h3, ha⟩

theorem readErrorOrEof_good (ht : Ends tail) (hpos : Position frames tail h pre post p) (hab : h.aborted = false)
    (hw : h.wants ≠ none) (hs : h.stream = []) (e : ℕ) : Good frames tail (h.readErrorOrEof table e) := by
  obtain ⟨h1, h2, -⟩ := readErrorOrEof_spec table h e
  obtain ⟨hp, hpost, htail, happ⟩ := hpos.exhausted ht hs
  have hz : h.payloadRemaining = p.length := by
    rw [hpos.remaining]
    unfold Handle.passing
    split
    · next hpc => exact absurd (by simp [Handle.wants, hpc]) hw
    · rfl
  have hst : h.stream = p ++ encode post ++ tail := by rw [hs, hp, hpost, htail]; rfl
  exact .inl ⟨h1.aborted.trans hab, pre, post, p, .of_plain (by simp [h2, Pc.Plain]) hpos.frames hpos.current
    (h1.delivered ▸ hpos.delivered) (h1.appended.trans happ) (h1.stream.trans hst) (h1.remaining.trans hz)
    (h1.remaining.trans_lt hpos.small)⟩

theorem iterate_good (hpos : Position frames tail h pre post p) (hab : h.aborted = false) {avail : ℕ} (hpc : h.pc = .loop avail) :
    Good frames tail (h.iterate avail) := by
  have hplain : h.pc.Plain := by rw [hpc]; trivial
  unfold Handle.iterate
  split_ifs with h0 h1
  · exact .inl ⟨hab, pre, post, p, hpos.plain ⟨rfl, rfl, rfl, rfl, rfl, rfl, rfl, rfl⟩ hplain trivial⟩
  · obtain ⟨e1, e2, e3, -⟩ := hplain.view pre p
    have hp : p = [] := by
      have := hpos.remaining
      exact length_eq_zero_iff.1 (by omega)
    obtain ⟨hf, hc, hd, ha, hu, hr, hs, hb⟩ := hpos
    exact .inl ⟨hab, pre, post, p, ⟨hf, hc, hd, e2 ▸ ha, e1 ▸ hu, by rw [hr, e3]; rfl, hs, by decide, hp⟩⟩
  · obtain ⟨h1, h2, -⟩ := finish_spec h
    exact .inl ⟨h1.aborted.trans hab, pre, post, p, hpos.plain h1 hplain (by rw [h2]; trivial)⟩

theorem allocated_good (hpos : Position frames tail h pre post p) (hab : h.aborted = false) {avail : ℕ} (hpc : h.pc = .alloc avail)
    (len : ℕ) : Good frames tail (h.allocated avail len) := by
  have hplain : h.pc.Plain := by rw [hpc]; trivial
  obtain ⟨e1, e2, e3, -⟩ := hplain.view pre p
  obtain ⟨hf, hc, hd, ha, hu, hr, hs, hb⟩ := hpos
  have hz : h.payloadRemaining = p.length := by rw [hr, e3, Nat.add_zero]
  unfold Handle.allocated
  split_ifs with h0 h1
  · exact .inl ⟨hab, pre, post, p, ⟨hf, hc, hd, e2 ▸ ha, e1 ▸ hu, hz, hs, trivial⟩⟩
  · exact .inl ⟨hab, pre, post, p, ⟨hf, hc, hd, e2 ▸ ha, e1 ▸ hu, hz, hs, hz ▸ h1.le⟩⟩
  · exact .inl ⟨hab, pre, post, p, ⟨hf, hc, hd, e2 ▸ ha, e1 ▸ hu, hz, hs, hz.le⟩⟩

theorem process_good (hg : Good frames tail h) (hpc : h.pc = .idle) (r : ZeroRead) : Good frames tail (h.process table r) := by
  have hplain : h.pc.Plain := by rw [hpc]; trivial
  -- the request is over
  have h0 : Same h { h with readPending := false, cancellationPending := false } := ⟨rfl, rfl, rfl, rfl, rfl, rfl, rfl, rfl⟩
  rcases hg with ⟨hab, pre, post, p, hpos⟩ | hg
  · have hgo (u : Handle) (hs : Same h u) (hu : u.pc.Plain) : Good frames tail u :=
      .inl ⟨hs.aborted.trans hab, pre, post, p, hpos.plain hs hplain hu⟩
    have herr (e : ℕ) : Good frames tail
        ({ h with readPending := false, cancellationPending := false }.readErrorOrEof table e) := by
      obtain ⟨h1, h2, -⟩ := readErrorOrEof_spec table { h with readPending := false, cancellationPending := false } e
      exact hgo _ (h0.trans h1) (by rw [h2]; trivial)
    simp only [Handle.process]
    split_ifs
    · cases r with
      | success => exact hgo _ ⟨rfl, rfl, rfl, rfl, rfl, rfl, rfl, rfl⟩ trivial
      | peekError e => exact herr e
      | error e =>
        dsimp only
        split_ifs
        · obtain ⟨h1, h2, -⟩ := finish_spec { h with readPending := false, cancellationPending := false }
          exact hgo _ (h0.trans h1) (by rw [h2]; trivial)
        · exact herr e
    · exact hgo _ h0 hplain
  · have e : h.process table r = { h with readPending := false, cancellationPending := false } := by
      exact if_neg (by simp [hg.reading])
    rw [e]
    exact .inr ⟨hg.tail, hg.aborted, hg.reading, hg.pc, hg.delivered, hg.appended, hg.remaining, hg.errors⟩

theorem step_good (ht : Ends tail) (hg : Good frames tail h) (harr : h.arrived ≤ h.stream.length) {l : Label} (he : enabled h l)
    (hr : (step table h l).restarted = false) : Good frames tail (step table h l) := by
  cases l with
  | arrive n =>
    rcases hg with ⟨hab, pre, post, p, hf, hc, hd, ha, hu, hr, hs, hb⟩ | ⟨h1, h2, h3, h4, h5, h6, h7, h8⟩
    · exact .inl ⟨hab, pre, post, p, hf, hc, hd, ha, hu, hr, hs, hb⟩
    · exact .inr ⟨h1, h2, h3, h4, h5, h6, h7, h8⟩
  | accept =>
    simp only [step, Handle.accept]
    split
    · exact hg
    · rcases hg with ⟨hab, pre, post, p, hf, hc, hd, ha, hu, hr, hs, hb⟩ | ⟨h1, h2, h3, h4, h5, h6, h7, h8⟩
      · exact .inl ⟨hab, pre, post, p, hf, hc, hd, ha, hu, hr, hs, hb⟩
      · exact .inr ⟨h1, h2, h3, h4, h5, h6, h7, h8⟩
  | stop =>
    obtain ⟨h1, h2, h3, h4, -⟩ := readStop_spec h
    rcases hg with ⟨hab, pre, post, p, hpos⟩ | hg
    · exact .inl ⟨h1.aborted.trans hab, pre, post, p, hpos.congr h1 h2⟩
    · have e : h.readStop = h := by rw [Handle.readStop, if_neg (by simp [hg.reading])]
      simp only [step, e]
      exact .inr hg
  | start =>
    obtain ⟨h1, h2, -, -, h5, -⟩ := readStart_spec h
    rcases hg with ⟨hab, pre, post, p, hpos⟩ | hg
    · exact .inl ⟨h1.aborted.trans hab, pre, post, p, hpos.congr h1 h2⟩
    · simp [step, h5, hg.reading, hg.aborted] at hr
  | ret => exact returned_good hg he
  | readFile n =>
    obtain ⟨hn, m, hw, hm⟩ := he
    rcases hg with ⟨hab, pre, post, p, hpos⟩ | hg
    · exact readFile_good ht hpos hab (hn.trans harr) hw hm
    · rcases hg.pc with hh | hh <;> simp [Handle.wants, hh] at hw
  | readFileError e =>
    obtain ⟨hw, hs⟩ := he
    rcases hg with ⟨hab, pre, post, p, hpos⟩ | hg
    · exact readErrorOrEof_good ht hpos hab hw hs e
    · rcases hg.pc with hh | hh <;> simp [Handle.wants, hh] at hw
  | iterate =>
    obtain ⟨avail, hpc⟩ := he
    simp only [step, hpc]
    rcases hg with ⟨hab, pre, post, p, hpos⟩ | hg
    · exact iterate_good hpos hab hpc
    · rcases hg.pc with hh | hh <;> rw [hpc] at hh <;> cases hh
  | alloc len =>
    obtain ⟨avail, hpc⟩ := he
    simp only [step, hpc]
    rcases hg with ⟨hab, pre, post, p, hpos⟩ | hg
    · exact allocated_good hpos hab hpc len
    · rcases hg.pc with hh | hh <;> rw [hpc] at hh <;> cases hh
  | process r => exact process_good hg he.1 r

/-! ## The invariant -/

structure Basic (h : Handle) : Prop where
  arrived : h.arrived ≤ h.stream.length
  queue : h.ipcXferQueue <:+ h.appended
  queueLength : h.ipcXferQueueLength = h.ipcXferQueue.length
  pending : h.pc = .idle → h.reading = true → h.readPending = true
  restarted : h.restarted = true → h.aborted = true

theorem Basic.of_same (hb : Basic h) (hs : Same h t) (hp : t.pc = .idle → t.reading = true → t.readPending = true)
    (hr : t.restarted = h.restarted) : Basic t :=
  ⟨by rw [hs.arrived, hs.stream]; exact hb.arrived, by rw [hs.queue, hs.appended]; exact hb.queue,
    by rw [hs.queueLength, hs.queue]; exact hb.queueLength, hp, fun h1 => hs.aborted.trans (hb.restarted (hr ▸ h1))⟩

theorem finish_basic (hb : Basic h) : Basic h.finish := by
  obtain ⟨h1, -, h3, -, h5, h6⟩ := finish_spec h
  exact hb.of_same h1 (fun _ hr => h6 (h3 ▸ hr)) h5

theorem continueWith_basic (hb : Basic h) (avail n : ℕ) : Basic (h.continueWith avail n) := by
  obtain ⟨h1, -, -, h4, h5⟩ := continueWith_spec h avail n
  exact hb.of_same h1 h5 h4

theorem readErrorOrEof_basic (table : ℕ → ℤ) (hb : Basic h) (e : ℕ) : Basic (h.readErrorOrEof table e) := by
  obtain ⟨h1, -, h3, h4, -⟩ := readErrorOrEof_spec table h e
  exact hb.of_same h1 (fun _ hr => absurd hr (by rw [h3]; decide)) h4

theorem Basic.withRemaining (hb : Basic h) (n : ℕ) : Basic { h with payloadRemaining := n } :=
  ⟨hb.arrived, hb.queue, hb.queueLength, hb.pending, hb.restarted⟩

theorem queueIpcXferInfo_basic (hb : Basic h) (r : Record) : Basic (h.queueIpcXferInfo r) := by
  refine ⟨hb.arrived, ?_, ?_, hb.pending, hb.restarted⟩
  · obtain ⟨l, hl⟩ := hb.queue
    exact ⟨l, by rw [Handle.queueIpcXferInfo, ← hl, append_assoc]⟩
  · rw [Handle.queueIpcXferInfo, length_append, length_singleton, hb.queueLength]

theorem gotHeader_basic (hb : Basic h) (avail : ℕ) (b : List UInt8) : Basic (h.gotHeader table avail b) := by
  unfold Handle.gotHeader
  split
  · obtain ⟨h1, h2, h3, h4, h5⟩ := readErrorOrEof_basic table hb WSAECONNABORTED
    exact ⟨h1, h2, h3, h4, fun _ => rfl⟩
  · exact continueWith_basic (hb.withRemaining _) _ _
  · exact ⟨hb.arrived, hb.queue, hb.queueLength, by simp, hb.restarted⟩

theorem readFile_basic (hb : Basic h) {n : ℕ} (hn : n ≤ h.arrived) (hw : h.wants ≠ none) : Basic (h.readFile table n) := by
  obtain ⟨h1, h2, h3, h4, h5⟩ := hb
  have ha : h.arrived - n ≤ (h.stream.drop n).length := by
    rw [length_drop]
    omega
  unfold Handle.readFile
  cases hpc : h.pc with
  | header avail got =>
    dsimp only
    split_ifs
    · exact ⟨ha, h2, h3, by simp, h5⟩
    · exact gotHeader_basic (h := { h with pc := .header avail got, stream := h.stream.drop n, arrived := h.arrived - n })
        ⟨ha, h2, h3, by simp, h5⟩ avail _
  | xfer avail type got =>
    dsimp only
    split_ifs
    · exact ⟨ha, h2, h3, by simp, h5⟩
    · refine continueWith_basic (queueIpcXferInfo_basic ?_ _) avail _
      exact ⟨ha, h2, h3, by simp, h5⟩
  | data avail max => exact ⟨ha, h2, h3, by simp, h5⟩
  | _ => simp [Handle.wants, hpc] at hw

theorem basic_step (hb : Basic h) {l : Label} (he : enabled h l) : Basic (step table h l) := by
  have ⟨h1, h2, h3, h4, h5⟩ := hb
  cases l with
  | arrive n => exact ⟨he, h2, h3, h4, h5⟩
  | accept =>
    simp only [step, Handle.accept]
    split
    · exact hb
    · next r q hq =>
      rw [hq] at h2 h3
      refine ⟨h1, (suffix_cons r q).trans h2, ?_, h4, h5⟩
      rw [h3, length_cons, Nat.add_sub_cancel]
  | stop =>
    obtain ⟨hs, -, hr, -, h6⟩ := readStop_spec h
    exact hb.of_same hs (fun _ hh => absurd hh (by rw [step, hr]; decide)) h6
  | start =>
    obtain ⟨hs, hpc, hr, -, h6, h7⟩ := readStart_spec h
    refine ⟨?_, ?_, ?_, fun hi _ => ?_, fun hh => ?_⟩
    · simpa only [step, hs.arrived, hs.stream] using h1
    · simpa only [step, hs.queue, hs.appended] using h2
    · simpa only [step, hs.queueLength, hs.queue] using h3
    · cases hread : h.reading with
      | true =>
        have e : h.readStart = h := by rw [Handle.readStart, if_pos hread]
        simp only [step, e] at hi ⊢
        exact h4 hi hread
      | false => exact h7 hread
    · simp only [step, h6, Bool.or_eq_true, Bool.and_eq_true] at hh
      simp only [step, hs.aborted]
      exact hh.elim h5 And.right
  | ret =>
    simp only [step, Handle.returned]
    split
    · exact continueWith_basic (hb.withRemaining _) _ _
    · exact finish_basic hb
  | readFile n =>
    obtain ⟨hn, m, hw, -⟩ := he
    exact readFile_basic hb hn (by simp [hw])
  | readFileError e => exact readErrorOrEof_basic table hb e
  | iterate =>
    obtain ⟨avail, hpc⟩ := he
    simp only [step, hpc, Handle.iterate]
    split_ifs
    · exact ⟨h1, h2, h3, by simp, h5⟩
    · exact ⟨h1, h2, h3, by simp, h5⟩
    · exact finish_basic hb
  | alloc len =>
    obtain ⟨avail, hpc⟩ := he
    simp only [step, hpc, Handle.allocated]
    split_ifs
    all_goals exact ⟨h1, h2, h3, by simp, h5⟩
  | process r =>
    have hs : Same h { h with readPending := false, cancellationPending := false } := ⟨rfl, rfl, rfl, rfl, rfl, rfl, rfl, rfl⟩
    have herr (e : ℕ) : Basic ({ h with readPending := false, cancellationPending := false }.readErrorOrEof table e) := by
      obtain ⟨hs', -, h6, h7, -⟩ := readErrorOrEof_spec table { h with readPending := false, cancellationPending := false } e
      exact hb.of_same (hs.trans hs') (fun _ hh => absurd hh (by rw [h6]; decide)) h7
    simp only [step, Handle.process]
    split_ifs with hread
    · cases r with
      | success => exact ⟨h1, h2, h3, by simp, h5⟩
      | peekError e => exact herr e
      | error e =>
        dsimp only
        split_ifs
        · obtain ⟨hs', -, h6, -, h7, h8⟩ := finish_spec { h with readPending := false, cancellationPending := false }
          exact hb.of_same (hs.trans hs') (fun _ _ => h8 hread) h7
        · exact herr e
    · exact hb.of_same hs (fun _ hh => absurd hh hread) rfl

structure Inv (frames : List Frame) (tail : List UInt8) (h : Handle) : Prop where
  basic : Basic h
  good : h.restarted = false → Good frames tail h
  clean : tail = [] → h.restarted = false

theorem initial_inv (frames : List Frame) (tail : List UInt8) : Inv frames tail (initial (encode frames ++ tail)) :=
  ⟨⟨Nat.zero_le _, suffix_rfl, rfl, by simp [initial], by simp [initial]⟩,
    fun _ => .inl ⟨rfl, [], frames, [], rfl, nil_suffix, rfl, rfl, rfl, rfl, Nat.two_pow_pos 32, trivial⟩, fun _ => rfl⟩

theorem restarted_step (table : ℕ → ℤ) (h : Handle) (l : Label) :
    (step table h l).restarted = (h.restarted || (l == .start && !h.reading && h.aborted)) := by
  have herr (u : Handle) (e : ℕ) (hu : u.restarted = h.restarted) : (u.readErrorOrEof table e).restarted = h.restarted := by
    obtain ⟨-, -, -, h4, -⟩ := readErrorOrEof_spec table u e
    rw [h4, hu]
  have hcont (u : Handle) (a n : ℕ) (hu : u.restarted = h.restarted) : (u.continueWith a n).restarted = h.restarted := by
    obtain ⟨-, -, -, h4, -⟩ := continueWith_spec u a n
    rw [h4, hu]
  have hfin (u : Handle) (hu : u.restarted = h.restarted) : u.finish.restarted = h.restarted := by
    obtain ⟨-, -, -, -, h5, -⟩ := finish_spec u
    rw [h5, hu]
  have hkeep (hl : l ≠ .start) (hr : (step table h l).restarted = h.restarted) :
      (step table h l).restarted = (h.restarted || (l == .start && !h.reading && h.aborted)) := by
    rw [hr, beq_eq_false_iff_ne.2 hl, Bool.false_and, Bool.false_and, Bool.or_false]
  cases l with
  | start =>
    obtain ⟨-, -, -, -, h5, -⟩ := readStart_spec h
    rw [step, h5]
    rfl
  | arrive n => exact hkeep (by simp) rfl
  | accept =>
    refine hkeep (by simp) ?_
    simp only [step, Handle.accept]
    split <;> rfl
  | stop =>
    obtain ⟨-, -, -, -, h5⟩ := readStop_spec h
    exact hkeep (by simp) h5
  | ret =>
    refine hkeep (by simp) ?_
    simp only [step, Handle.returned]
    split
    · exact hcont _ _ _ rfl
    · exact hfin h rfl
  | readFile n =>
    refine hkeep (by simp) ?_
    simp only [step, Handle.readFile]
    split
    · split_ifs
      · rfl
      · unfold Handle.gotHeader
        split
        · exact herr _ WSAECONNABORTED rfl
        · exact hcont _ _ _ rfl
        · rfl
    · split_ifs
      · rfl
      · exact hcont _ _ _ rfl
    · rfl
    · rfl
  | readFileError e => exact hkeep (by simp) (herr h e rfl)
  | iterate =>
    refine hkeep (by simp) ?_
    simp only [step]
    split
    · unfold Handle.iterate
      split_ifs
      · rfl
      · rfl
      · exact hfin h rfl
    · rfl
  | alloc len =>
    refine hkeep (by simp) ?_
    simp only [step]
    split
    · unfold Handle.allocated
      split_ifs <;> rfl
    · rfl
  | process r =>
    refine hkeep (by simp) ?_
    simp only [step, Handle.process]
    split_ifs
    · split
      · rfl
      · exact herr _ _ rfl
      · split_ifs
        · exact hfin _ rfl
        · exact herr _ _ rfl
    · rfl

theorem inv_inductive (table : ℕ → ℤ) (ht : Ends tail) : (system table (encode frames ++ tail)).Inductive (Inv frames tail) where
  init := by
    rintro h rfl
    exact initial_inv frames tail
  step := by
    rintro h l t hi ⟨he, rfl⟩
    refine ⟨basic_step hi.basic he, fun hr => step_good ht (hi.good ?_) hi.basic.arrived he hr, fun h0 => ?_⟩
    · have hstep := restarted_step table h l
      rw [hr] at hstep
      exact (Bool.or_eq_false_iff.1 hstep.symm).1
    · have hr := hi.clean h0
      have hab := ((hi.good hr).resolve_right fun hs => hs.tail h0).1
      rw [restarted_step, hr, hab, Bool.and_false, Bool.or_false]

/-! ## The decoder -/

/-- What the user has seen of the frames: payloads and records in order, and a record before the payload of its frame. -/
structure Decodes (frames : List Frame) (h : Handle) : Prop where
  delivered : h.delivered <+: payloads frames
  appended : h.appended <+: records frames
  queue : h.ipcXferQueue <:+ h.appended ∧ h.ipcXferQueueLength = h.ipcXferQueue.length
  before : ∀ k, (payloads (frames.take k)).length < h.delivered.length → records (frames.take (k + 1)) <+: h.appended

theorem payloads_append (a b : List Frame) : payloads (a ++ b) = payloads a ++ payloads b := flatMap_append

theorem records_append (a b : List Frame) : records (a ++ b) = records a ++ records b := flatMap_append

theorem payloads_mono {a b : List Frame} (h : a <+: b) : payloads a <+: payloads b := by
  obtain ⟨r, rfl⟩ := h
  exact ⟨payloads r, (payloads_append a r).symm⟩

theorem records_mono {a b : List Frame} (h : a <+: b) : records a <+: records b := by
  obtain ⟨r, rfl⟩ := h
  exact ⟨records r, (records_append a r).symm⟩

theorem take_of_delivered {q : List Frame} (hq : q <+: frames) {d : List UInt8} (hd : d <+: payloads q) {k : ℕ}
    (hk : (payloads (frames.take k)).length < d.length) : frames.take (k + 1) <+: q := by
  have hqe := prefix_iff_eq_take.1 hq
  have hlt : k < q.length := by
    by_contra hle
    have h1 : q <+: frames.take k := by
      rw [hqe]
      exact take_prefix_take_left (by omega)
    have h2 := (payloads_mono h1).length_le
    have h3 := hd.length_le
    omega
  rw [hqe]
  exact take_prefix_take_left hlt

theorem Position.source (hpos : Position frames tail h pre post p) :
    ∃ q, q <+: frames ∧ h.delivered <+: payloads q ∧ h.appended = records q := by
  obtain ⟨rfl, -, hd, ha, -, -, -, hb⟩ := hpos
  have hpre (ha : h.appended = records pre) : ∃ q, q <+: pre ++ post ∧ h.delivered <+: payloads q ∧ h.appended = records q :=
    ⟨pre, List.prefix_append .., ⟨p, hd⟩, ha⟩
  cases hpc : h.pc with
  | xfer avail type got =>
    simp only [Handle.Bounded, hpc] at hb
    obtain ⟨-, -, q, f, rfl, rfl, hq⟩ := hb
    rw [payloads_concat] at hd
    exact ⟨q, by simp, by rw [append_cancel_right hd], hq⟩
  | _ =>
    simp only [Handle.announced, hpc] at ha
    exact hpre ha

theorem Decodes.of_source (hb : Basic h) {q : List Frame} (hq : q <+: frames) (hd : h.delivered <+: payloads q)
    (ha : h.appended = records q) : Decodes frames h :=
  ⟨hd.trans (payloads_mono hq), ha ▸ records_mono hq, ⟨hb.queue, hb.queueLength⟩,
    fun _ hk => ha ▸ records_mono (take_of_delivered hq hd hk)⟩

theorem Position.unread_tail (hpos : Position frames tail h pre post p) : tail.length < h.stream.length + headerSize := by
  have hu := congrArg List.length hpos.unread
  have hb := hpos.bounded
  rw [length_append] at hu
  cases hpc : h.pc with
  | header avail got =>
    simp only [Handle.Bounded, hpc] at hb
    simp only [Handle.unread, hpc, length_append] at hu
    omega
  | xfer avail type got =>
    simp only [Handle.Bounded, hpc] at hb
    simp only [Handle.unread, hpc, length_append, length_drop] at hu
    unfold headerSize
    omega
  | _ =>
    simp only [Handle.unread, hpc] at hu
    unfold headerSize
    omega

theorem read_all {table : ℕ → ℤ} (hreach : (system table (encode frames)).Reachable h) (hs : h.stream = []) :
    h.delivered = payloads frames ∧ h.appended = records frames := by
  rw [← append_nil (encode frames)] at hreach
  obtain ⟨-, hg, hclean⟩ := (inv_inductive table (.inl rfl)).reachable hreach
  obtain ⟨-, pre, post, p, hpos⟩ := (hg (hclean rfl)).resolve_right fun hs => hs.tail rfl
  obtain ⟨rfl, rfl, -, happ⟩ := hpos.exhausted (.inl rfl) hs
  have hf : frames = pre := by rw [hpos.frames, append_nil]
  have hdel := hpos.delivered
  rw [append_nil] at hdel
  exact ⟨hf ▸ hdel, hf ▸ happ⟩

/-- **Reading frames.** Payloads and records arrive in order, whatever the reads return and the user does, all of them when the
stream is at its end, and `payload_remaining` is what is left of the payload of the frame, and in a callback what it is given;
a handle that reads has a request. Behind an invalid header reading has stopped with `UV_ECONNABORTED`, and nothing of its
frame is delivered or put into the queue, until the user starts again. -/
theorem ipc_read (table : ℕ → ℤ) (frames : List Frame) :
    (∀ h, (system table (encode frames)).Reachable h →
      h.aborted = false ∧ Decodes frames h ∧ (∃ pre post p, Position frames [] h pre post p) ∧
      (h.stream = [] → h.delivered = payloads frames ∧ h.appended = records frames) ∧
      (h.pc = .idle → h.reading = true → h.readPending = true)) ∧
    ∀ tail, headerSize ≤ tail.length → ¬ (frameHeader (tail.take headerSize)).Valid →
      ∀ h, (system table (encode frames ++ tail)).Reachable h → h.restarted = false → Decodes frames h ∧
        (h.aborted = false ∧ tail.length < h.stream.length + headerSize ∧ (∃ pre post p, Position frames tail h pre post p) ∨
          Stopped frames tail h) := by
  refine ⟨fun h hreach => ?_, fun tail hl hv h hreach hr => ?_⟩
  · have hend := read_all hreach
    rw [← append_nil (encode frames)] at hreach
    obtain ⟨hb, hg, hclean⟩ := (inv_inductive table (.inl rfl)).reachable hreach
    obtain ⟨hab, pre, post, p, hpos⟩ := (hg (hclean rfl)).resolve_right fun hs => hs.tail rfl
    obtain ⟨q, hq, hd, ha⟩ := hpos.source
    exact ⟨hab, .of_source hb hq hd ha, ⟨pre, post, p, hpos⟩, hend, hb.pending⟩
  · obtain ⟨hb, hg, -⟩ := (inv_inductive table (.inr ⟨hl, hv⟩)).reachable hreach
    rcases hg hr with ⟨hab, pre, post, p, hpos⟩ | hs
    · obtain ⟨q, hq, hd, ha⟩ := hpos.source
      exact ⟨.of_source hb hq hd ha, .inl ⟨hab, hpos.unread_tail, pre, post, p, hpos⟩⟩
    · exact ⟨.of_source hb prefix_rfl (hs.delivered ▸ prefix_rfl) hs.appended, .inr hs⟩

/-! ## Runs -/

theorem run_step {bytes : List UInt8} (hr : (system (fun _ => 0) bytes).Reachable h) (l : Label) (he : enabled h l) :
    (system (fun _ => 0) bytes).Reachable (step (fun _ => 0) h l) := hr.step ⟨he, rfl⟩

theorem initial_reachable (bytes : List UInt8) : (system (fun _ => 0) bytes).Reachable (initial bytes) := .init rfl

def oneByte : Frame where
  header := ⟨1, 0, 1, 0⟩
  xferInfo := []
  payload := [7]
  valid := ⟨by decide, by decide, by decide, by decide⟩
  xfer_length := by decide
  payload_length := by decide

theorem oneByte_reachable : ∃ h, (system (fun _ => 0) (encode [oneByte])).Reachable h ∧ h.pc = .callback 1 1 ∧
    h.delivered = payloads [oneByte] ∧ h.payloadRemaining = 1 := by
  have h1 := run_step (initial_reachable (encode [oneByte])) .start rfl
  have h2 := run_step h1 (.arrive 17) (Nat.le_refl 17)
  have h3 := run_step h2 (.process .success) ⟨rfl, rfl⟩
  have h4 := run_step h3 .iterate ⟨17, rfl⟩
  have h5 := run_step h4 (.readFile 16) ⟨by decide, 16, rfl, by decide⟩
  have h6 := run_step h5 .iterate ⟨1, rfl⟩
  have h7 := run_step h6 (.alloc 5) ⟨1, rfl⟩
  have h8 := run_step h7 (.readFile 1) ⟨by decide, 1, rfl, by decide⟩
  exact ⟨_, h8, by decide, by decide, by decide⟩

/-- **In the callback `payload_remaining` counts the bytes that are being delivered**: all of the payload was passed to `read_cb`,
and the counter says that one byte is left. -/
theorem remaining_in_callback : ¬ ∀ frames h, (system (fun _ => 0) (encode frames)).Reachable h →
    h.delivered = payloads frames → h.payloadRemaining = 0 := by
  intro hall
  obtain ⟨h, hr, -, hd, hn⟩ := oneByte_reachable
  rw [hall _ h hr hd] at hn
  cases hn

def unknownFlag : FrameHeader := ⟨8, 0, 0, 0⟩

theorem unknownFlag_reachable : ∃ h, (system (fun _ => 0) (encode [] ++ unknownFlag.bytes)).Reachable h ∧ h.aborted = true ∧
    h.restarted = false := by
  have h1 := run_step (initial_reachable (encode [] ++ unknownFlag.bytes)) .start rfl
  have h2 := run_step h1 (.arrive 16) (Nat.le_refl 16)
  have h3 := run_step h2 (.process .success) ⟨rfl, rfl⟩
  have h4 := run_step h3 .iterate ⟨16, rfl⟩
  have h5 := run_step h4 (.readFile 16) ⟨by decide, 16, rfl, by decide⟩
  exact ⟨_, h5, by decide, by decide⟩

theorem ipc_read_runs :
    (∃ h, (system (fun _ => 0) (encode [oneByte])).Reachable h ∧ h.pc = .callback 1 1 ∧ Decodes [oneByte] h) ∧
    ∃ h, (system (fun _ => 0) (encode [] ++ unknownFlag.bytes)).Reachable h ∧ Stopped [] unknownFlag.bytes h := by
  constructor
  · obtain ⟨h, hr, hpc, -⟩ := oneByte_reachable
    exact ⟨h, hr, hpc, ((ipc_read (fun _ => 0) [oneByte]).1 h hr).2.1⟩
  · obtain ⟨h, hr, hab, hre⟩ := unknownFlag_reachable
    have hv : ¬ (frameHeader (unknownFlag.bytes.take headerSize)).Valid := fun hv => absurd hv.flags (by decide)
    obtain ⟨-, hs⟩ := (ipc_read (fun _ => 0) []).2 unknownFlag.bytes (by decide) hv h hr hre
    exact ⟨h, hr, hs.resolve_left fun hn => by simp [hab] at hn⟩

end Libuv.L5.PipeRead
