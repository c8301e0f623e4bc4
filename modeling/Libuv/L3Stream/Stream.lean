import Mathlib.Tactic
import Libuv.Core.CInt
import Libuv.Core.LTS

/-!
# Streams (`stream.c`, `tcp.c`, `pipe.c`)

`libuv/src/unix/stream.c`, one stream that does not listen, with `uv__tcp_connect` and
`uv_pipe_connect`. The library runs on one thread, and callbacks in the middle of it call
back into the API, so a run is a sequence of steps each of which is one API call, or the
library's code from where it was entered (by an event, from the pending queue, by
`uv__stream_destroy`, by a callback's return) up to the next callback. `Pc` says in which
callback the library waits. A label carries what the caller and the kernel decide in the
step, so a step is a function of its label.

A failed `assert`, a call of a `NULL` callback and a write of more than the kernel was
offered are faults; the three assertions about `write_queue_size` have a fault each.

A `uv_buf_t` is what is left of it, a list of bytes, and `nbufs` the length of `bufs`. A
request is known by the number of its call (`id`). `calls`, `sent` and `called` are what
the stream's environment sees: the calls that were accepted, the bytes the kernel took,
each with the call it belongs to, and the callbacks started (or left out, where `NULL`),
with their status. `activeReqs` is the stream's part of `loop->active_reqs.count`.

System calls interrupted by a signal are repeated and do not show. Not modelled: `uv_listen`
and accepting, the select thread of macOS, `uv_tcp_bind` and `uv_pipe_bind` beyond the fd
and `delayed_error`, the bytes read, and the reference counts of handles.
-/
namespace Libuv.L3.Stream

def UV_EAGAIN : ℤ := -11
def UV_ECONNREFUSED : ℤ := -111
def UV_EINPROGRESS : ℤ := -115
def UV_ECANCELED : ℤ := -125

/-! ## State -/

/-- `base` and `len` of a `uv_buf_t`. -/
abbrev Buf := List UInt8

structure WriteReq where
  id : ℕ
  /-- `none` is `NULL` -/
  bufs : Option (List Buf)
  writeIndex : ℕ
  error : ℤ
  /-- `send_handle != NULL` -/
  sendHandle : Bool
  cb : Bool
  deriving DecidableEq

/-- A `uv_connect_t` or a `uv_shutdown_t`. -/
structure Req where
  id : ℕ
  cb : Bool
  deriving DecidableEq

structure Flags where
  closing : Bool
  closed : Bool
  reading : Bool
  readPartial : Bool
  readEof : Bool
  readable : Bool
  writable : Bool
  shutting : Bool
  shut : Bool
  blockingWrites : Bool
  deriving DecidableEq

inductive HandleType
  | tcp | pipe | tty
  deriving DecidableEq

/-- The `pending_queue` node of the I/O watcher; `stale` when it was removed by
`uv__io_close`, which does not reinitialise it. -/
inductive Link
  | unlinked | queued | stale
  deriving DecidableEq

/-- `POLLIN`, `POLLOUT`, `POLLERR` and `POLLHUP`. -/
structure Events where
  rd : Bool
  wr : Bool
  err : Bool
  hup : Bool
  deriving DecidableEq

/-- Who called `uv__write_callbacks`. -/
inductive Caller
  | io | connect | destroy
  deriving DecidableEq

/-- What `uv__read` does after a `read_cb`. -/
inductive ReadNext
  | stop
  | error
  | short
  | again (count : ℕ)
  deriving DecidableEq

inductive Pc
  | idle
  | connectCb (error : ℤ)
  | allocCb (count : ℕ) (ev : Events)
  | readCb (next : ReadNext) (ev : Events)
  | eofCb (ev : Events)
  | writeCb (caller : Caller)
  | shutdownCb
  | destroyConnectCb
  | destroyShutdownCb
  deriving DecidableEq

inductive Call
  | write (bufs : List Buf) (cb : Bool)
  | tryWrite (bufs : List Buf)
  | connect (cb : Bool)
  | shutdown (cb : Bool)
  deriving DecidableEq

structure State where
  type : HandleType
  ipc : Bool
  fd : ℤ
  flags : Flags
  readCb : Bool
  connectReq : Option Req
  shutdownReq : Option Req
  delayedError : ℤ
  writeQueue : List WriteReq
  writeCompletedQueue : List WriteReq
  /-- the local queue of `uv__write_callbacks` -/
  pq : List WriteReq
  writeQueueSize : ℕ
  pollin : Bool
  pollout : Bool
  pending : Link
  activeReqs : ℕ
  pc : Pc
  /-- `uv__stream_destroy` has finished -/
  destroyed : Bool
  calls : List Call
  sent : List (ℕ × UInt8)
  called : List (ℕ × ℤ)
  deriving DecidableEq

/-- `stuck` is not a fault of the code: the label does not fit the state. -/
inductive Fault
  | stuck
  | crash
  /-- `assert(n <= stream->write_queue_size)` -/
  | reqUpdate
  /-- `assert(req->handle->write_queue_size >= size)` -/
  | reqSize
  /-- `assert(stream->write_queue_size == 0)` -/
  | destroySize
  deriving DecidableEq

inductive Outcome
  | wrote (n : ℕ)
  | again
  | error (e : ℤ)
  deriving DecidableEq

inductive ReadResult
  | data (short : Bool) (cmsgError : Bool)
  | again
  | eof
  | error
  deriving DecidableEq

/-- What kernel and callbacks answer while the library runs: the outcomes of its writes in
order, of `shutdown(2)`, of `getsockopt(SO_ERROR)` and of a read, and whether `alloc_cb`
gave a buffer. -/
structure Env where
  outs : List Outcome
  shutdown : ℤ
  soError : ℤ
  read : ReadResult
  buf : Bool
  deriving DecidableEq

/-- `size_t` -/
def sizeMax : ℕ := 2 ^ 64

/-- mirrors uv-common.c, `uv__count_bufs` -/
def countBufs (bufs : List Buf) : ℕ := (bufs.map List.length).sum % sizeMax

/-- `req->bufs + req->write_index` and what follows it. -/
def WriteReq.remaining (req : WriteReq) : List Buf := (req.bufs.getD []).drop req.writeIndex

namespace State
variable (s : State)

/-! ## The I/O watcher and the requests -/

/-- `uv__io_start(.., POLLIN)` -/
def ioStartIn : Except Fault State :=
  if s.fd < 0 then .error .crash else .ok { s with pollin := true }

/-- `uv__io_start(.., POLLOUT)` -/
def ioStartOut : Except Fault State :=
  if s.fd < 0 then .error .crash else .ok { s with pollout := true }

/-- `uv__io_stop(.., POLLIN)` -/
def ioStopIn : State := if s.fd = -1 then s else { s with pollin := false }

/-- `uv__io_stop(.., POLLOUT)` -/
def ioStopOut : State := if s.fd = -1 then s else { s with pollout := false }

/-- `uv__io_feed`: a watcher that is linked, or was once unlinked without being
reinitialised, is not inserted. -/
def ioFeed : State := if s.pending = .unlinked then { s with pending := .queued } else s

def reqRegister : State := { s with activeReqs := s.activeReqs + 1 }

def reqUnregister : Except Fault State :=
  if s.activeReqs = 0 then .error .crash else .ok { s with activeReqs := s.activeReqs - 1 }

/-- The callback of a request starts, or would if it were not `NULL`. -/
def call (id : ℕ) (status : ℤ) : State := { s with called := s.called ++ [(id, status)] }

def nextId : ℕ := s.calls.length

/-! ## Writing -/

/-- What the kernel is offered of `bufs`. -/
def offered (iovmax : ℕ) (bufs : List Buf) : List UInt8 := (bufs.take iovmax).flatten

/-- `uv__try_write`, for the call `id`: the count is returned as an `int`.
mirrors unix/stream.c:834-929 -/
def uvTryWrite (iovmax : ℕ) (id : ℕ) (bufs : List Buf) (o : Outcome) : Except Fault (ℤ × State) :=
  match o with
  | .wrote n =>
    if n ≤ (offered iovmax bufs).length then
      .ok (CInt.ofNat n, { s with sent := s.sent ++ ((offered iovmax bufs).take n).map (Prod.mk id) })
    else .error .stuck
  | .again => .ok (UV_EAGAIN, s)
  | .error e => if e < 0 ∧ e ≠ UV_EAGAIN then .ok (e, s) else .error .stuck

/-- The `do`-loop of `uv__write_req_update`: the buffers from `buf` on after `n` bytes,
and how many of them it has gone past; `none` when it runs off the array.
mirrors unix/stream.c:783-790 -/
def advance : ℕ → List Buf → Option (List Buf × ℕ)
  | _, [] => none
  | n, buf :: bufs =>
    let len := min n buf.length
    if (buf.drop len).length = 0 then
      if n - len = 0 then some (buf.drop len :: bufs, 1)
      else (advance (n - len) bufs).map fun (bs, k) => (buf.drop len :: bs, k + 1)
    else some (buf.drop len :: bufs, 0)

/-- The result, and the request with its buffers updated in place.
mirrors unix/stream.c:771-793 -/
def writeReqUpdate (req : WriteReq) (n : ℕ) : Except Fault (Bool × WriteReq × State) :=
  if s.writeQueueSize < n then .error .reqUpdate
  else
    match advance n req.remaining with
    | none => .error .crash
    | some (bufs, k) =>
      let bufs := (req.bufs.getD []).take req.writeIndex ++ bufs
      let req := { req with bufs := some bufs, writeIndex := req.writeIndex + k }
      .ok (decide (req.writeIndex = bufs.length), req, { s with writeQueueSize := s.writeQueueSize - n })

/-- The head `req` of the write queue is finished; `rest` is behind it.
mirrors unix/stream.c:796-819 -/
def writeReqFinish (req : WriteReq) (rest : List WriteReq) : State :=
  let req := if req.error = 0 then { req with bufs := none } else req
  { s with writeQueue := rest, writeCompletedQueue := s.writeCompletedQueue ++ [req] }.ioFeed

/-- The loop of `uv__write`; each round takes one outcome.
mirrors unix/stream.c:947-992 -/
def uvWriteLoop (iovmax : ℕ) : List Outcome → State → Except Fault State
  | outs, s =>
    match s.writeQueue with
    | [] => .ok s
    | req :: rest =>
      match outs with
      | [] => .error .stuck
      | o :: outs => do
        let (n, s) ← s.uvTryWrite iovmax req.id req.remaining o
        if 0 ≤ n then
          let (done, req, s) ← s.writeReqUpdate { req with sendHandle := false } n.toNat
          if done then .ok (s.writeReqFinish req rest)
          else
            let s := { s with writeQueue := req :: rest }
            if s.flags.blockingWrites then uvWriteLoop iovmax outs s else s.ioStartOut
        else if n ≠ UV_EAGAIN then .ok (s.writeReqFinish { req with error := n } rest).ioStopOut
        else if s.flags.blockingWrites then uvWriteLoop iovmax outs s
        else s.ioStartOut

/-- mirrors unix/stream.c:940-993 -/
def uvWrite (iovmax : ℕ) (outs : List Outcome) : Except Fault State :=
  if s.fd < 0 then .error .crash else uvWriteLoop iovmax outs s

/-- mirrors unix/stream.c:430-440 -/
def flushWriteQueue (error : ℤ) : State :=
  { s with
    writeQueue := []
    writeCompletedQueue := s.writeCompletedQueue ++ s.writeQueue.map fun r => { r with error := error } }

/-- mirrors unix/stream.c:713-742 -/
def drain (env : Env) : Except Fault State :=
  if s.writeQueue ≠ [] then .error .crash
  else
    let s := s.ioStopOut
    if s.flags.shutting ∧ ¬ s.flags.closing ∧ ¬ s.flags.shut then
      match s.shutdownReq with
      | none => .error .crash
      | some req => do
        let s := { s with shutdownReq := none, flags := { s.flags with shutting := false } }
        let s ← s.reqUnregister
        let s := if env.shutdown = 0 then { s with flags := { s.flags with shut := true } } else s
        let s := s.call req.id env.shutdown
        .ok (if req.cb then { s with pc := .shutdownCb } else { s with pc := .idle })
    else .ok { s with pc := .idle }

/-- The end of `uv__stream_destroy`. -/
def destroyEnd : Except Fault State :=
  if s.writeQueueSize ≠ 0 then .error .destroySize else .ok { s with destroyed := true, pc := .idle }

/-- `uv__stream_destroy` from the shutdown request on.
mirrors unix/stream.c:469-481 -/
def destroyShutdown : Except Fault State :=
  match s.shutdownReq with
  | none => s.destroyEnd
  | some req => do
    let s ← s.reqUnregister
    if req.cb then .ok { s.call req.id UV_ECANCELED with pc := .destroyShutdownCb } else .error .crash

/-- What follows `uv__write_callbacks` in its caller. -/
def afterCallbacks (caller : Caller) (env : Env) : Except Fault State :=
  match caller with
  | .io => if s.writeQueue = [] then s.drain env else .ok { s with pc := .idle }
  | .connect => .ok { s with pc := .idle }
  | .destroy => s.destroyShutdown

/-- A request taken off the completed ones, up to its callback. -/
def popCompleted (req : WriteReq) (rest : List WriteReq) : Except Fault State := do
  let s ← { s with pq := rest }.reqUnregister
  match req.bufs with
  | none => .ok (s.call req.id req.error)
  | some _ =>
    let size := countBufs req.remaining
    if s.writeQueueSize < size then .error .reqSize
    else .ok ({ s with writeQueueSize := s.writeQueueSize - size }.call req.id req.error)

/-- The loop of `uv__write_callbacks`, up to the next callback.
mirrors unix/stream.c:1009-1027 -/
def runCallbacks (caller : Caller) (env : Env) : List WriteReq → State → Except Fault State
  | [], s => s.afterCallbacks caller env
  | req :: rest, s => do
    let s ← s.popCompleted req rest
    if req.cb then .ok { s with pc := .writeCb caller } else runCallbacks caller env rest s

/-- mirrors unix/stream.c:997-1028 -/
def writeCallbacks (caller : Caller) (env : Env) : Except Fault State :=
  runCallbacks caller env s.writeCompletedQueue
    { s with pq := s.writeCompletedQueue, writeCompletedQueue := [] }

/-! ## Events -/

/-- mirrors unix/stream.c:1030-1037, up to `read_cb` -/
def streamEof : State :=
  { s with flags := { s.flags with readEof := true, reading := false } }.ioStopIn

/-- `stream->read_cb(..)` -/
def callRead (next : Pc) : Except Fault State :=
  if s.readCb then .ok { s with pc := next } else .error .crash

/-- The write part of `uv__stream_io`.
mirrors unix/stream.c:1386-1401 -/
def afterEof (iovmax : ℕ) (ev : Events) (env : Env) : Except Fault State :=
  if s.fd = -1 then .ok { s with pc := .idle }
  else if ev.wr ∨ ev.err ∨ ev.hup then do
    let s ← s.uvWrite iovmax env.outs
    s.writeCallbacks .io env
  else .ok { s with pc := .idle }

/-- `uv__stream_io` behind `uv__read`.
mirrors unix/stream.c:1366-1386 -/
def afterRead (iovmax : ℕ) (ev : Events) (env : Env) : Except Fault State :=
  if s.fd = -1 then .ok { s with pc := .idle }
  else if ev.hup ∧ s.flags.reading ∧ s.flags.readPartial ∧ ¬ s.flags.readEof then
    s.streamEof.callRead (.eofCb ev)
  else s.afterEof iovmax ev env

/-- The loop condition of `uv__read`. -/
def readLoop (iovmax : ℕ) (count : ℕ) (ev : Events) (env : Env) : Except Fault State :=
  if s.readCb ∧ s.flags.reading ∧ 0 < count then .ok { s with pc := .allocCb (count - 1) ev }
  else s.afterRead iovmax ev env

/-- `uv__read` from `alloc_cb`'s return to `read_cb`.
mirrors unix/stream.c:1148-1290 -/
def afterAlloc (count : ℕ) (ev : Events) (env : Env) : Except Fault State :=
  if env.buf = false then s.callRead (.readCb .stop ev)
  else if s.fd < 0 then .error .crash
  else
    match env.read with
    | .again => do
      let s ← if s.flags.reading then s.ioStartIn else .ok s
      s.callRead (.readCb .stop ev)
    | .error =>
      { s with flags := { s.flags with readable := false, writable := false } }.callRead (.readCb .error ev)
    | .eof => s.streamEof.callRead (.readCb .stop ev)
    | .data short cmsgError =>
      if s.type = .pipe ∧ s.ipc ∧ cmsgError then s.callRead (.readCb .stop ev)
      else s.callRead (.readCb (if short then .short else .again count) ev)

/-- `uv__read` from `read_cb`'s return. -/
def afterReadCb (iovmax : ℕ) (next : ReadNext) (ev : Events) (env : Env) : Except Fault State :=
  match next with
  | .stop => s.afterRead iovmax ev env
  | .error =>
    let s := if s.flags.reading then { s with flags := { s.flags with reading := false } }.ioStopIn else s
    s.afterRead iovmax ev env
  | .short => { s with flags := { s.flags with readPartial := true } }.afterRead iovmax ev env
  | .again count => s.readLoop iovmax count ev env

/-- `uv__stream_connect` from the callback's return.
mirrors unix/stream.c:1449-1455 -/
def afterConnect (error : ℤ) (env : Env) : Except Fault State :=
  if s.fd = -1 then .ok { s with pc := .idle }
  else if error < 0 then (s.flushWriteQueue UV_ECANCELED).writeCallbacks .connect env
  else .ok { s with pc := .idle }

/-- The error of a connect: the delayed one, or the socket's. -/
def connectError (env : Env) : ℤ := if s.delayedError ≠ 0 then s.delayedError else env.soError

/-- mirrors unix/stream.c:1410-1456 -/
def streamConnect (req : Req) (env : Env) : Except Fault State :=
  if s.delayedError = 0 ∧ s.fd < 0 then .error .crash
  else if s.delayedError = 0 ∧ 0 < env.soError then .error .stuck
  else
    let error := s.connectError env
    let s := { s with delayedError := 0 }
    if error = UV_EINPROGRESS then .ok { s with pc := .idle }
    else do
      let s ← { s with connectReq := none }.reqUnregister
      let s := if error < 0 ∨ s.writeQueue = [] then s.ioStopOut else s
      let s := s.call req.id error
      if req.cb then .ok { s with pc := .connectCb error } else s.afterConnect error env

/-- mirrors unix/stream.c:1345-1402 -/
def streamIo (iovmax : ℕ) (ev : Events) (env : Env) : Except Fault State :=
  if s.flags.closing then .error .crash
  else
    match s.connectReq with
    | some req => s.streamConnect req env
    | none =>
      if s.fd < 0 then .error .crash
      else if ev.rd ∨ ev.err ∨ ev.hup then
        { s with flags := { s.flags with readPartial := false } }.readLoop iovmax 32 ev env
      else s.afterRead iovmax ev env

/-! ## Destroying -/

/-- `uv__stream_destroy` behind the connect request. -/
def destroyWrites (env : Env) : Except Fault State :=
  (s.flushWriteQueue UV_ECANCELED).writeCallbacks .destroy env

/-- `uv__finish_close` and `uv__stream_destroy`.
mirrors unix/stream.c:442-482 -/
def streamDestroy (env : Env) : Except Fault State :=
  if s.pollin ∨ s.pollout then .error .crash
  else
    let s := { s with flags := { s.flags with closed := true } }
    match s.connectReq with
    | some req => do
      let s ← s.reqUnregister
      if req.cb then .ok { s.call req.id UV_ECANCELED with pc := .destroyConnectCb } else .error .crash
    | none => s.destroyWrites env

/-! ## The API -/

/-- `uv__stream_open` with a new fd, or with the fd it has while no event is watched.
mirrors unix/stream.c:400-428 -/
def streamOpen (fd : ℤ) (readable writable : Bool) : Except Fault State :=
  if ¬ (s.fd = -1 ∨ s.fd = fd ∧ ¬ s.pollin ∧ ¬ s.pollout) then .ok s
  else if fd < 0 then .error .crash
  else .ok { s with
    fd := fd
    flags := { s.flags with
      readable := s.flags.readable || readable
      writable := s.flags.writable || writable } }

/-- `uv_tcp_bind` or `uv_pipe_bind`: an fd if there is none, and for a TCP handle the error
to report later. -/
def bind (fd : ℤ) (error : ℤ) : Except Fault State :=
  if fd < 0 ∨ 0 < error then .error .stuck
  else
    let s := if s.fd = -1 then { s with fd := fd } else s
    .ok (if s.type = .tcp then { s with delayedError := error } else s)

/-- What `maybe_new_socket` did: an fd (for a handle that has none), or an error with the
flags set or not. -/
inductive NewSocket
  | fd (fd : ℤ)
  | error (flags : Bool)
  deriving DecidableEq

/-- What `connect(2)` returned. -/
inductive ConnectResult
  | ok
  | inProgress
  | refused
  | error (e : ℤ)
  deriving DecidableEq

def setReadWrite : State := { s with flags := { s.flags with readable := true, writable := true } }

def connectSubmit (cb : Bool) : State :=
  { s.reqRegister with connectReq := some ⟨s.nextId, cb⟩, calls := s.calls ++ [Call.connect cb] }

/-- The `out:` part of `uv__tcp_connect`. -/
def tcpConnectOut (cb : Bool) : Except Fault State := do
  let s ← (s.connectSubmit cb).ioStartOut
  .ok (if s.delayedError ≠ 0 then s.ioFeed else s)

/-- mirrors unix/tcp.c:226-285 -/
def tcpConnect (cb : Bool) (sock : NewSocket) (r : ConnectResult) : Except Fault State :=
  if s.type ≠ .tcp then .error .crash
  else if s.connectReq.isSome then .ok s
  else if s.delayedError ≠ 0 then s.tcpConnectOut cb
  else
    match sock with
    | .error flags => .ok (if flags then s.setReadWrite else s)
    | .fd fd =>
      if fd < 0 then .error .stuck
      else
        let s := (if s.fd = -1 then { s with fd := fd } else s).setReadWrite
        match r with
        | .ok | .inProgress => s.tcpConnectOut cb
        | .refused => { s with delayedError := UV_ECONNREFUSED }.tcpConnectOut cb
        | .error _ => .ok s

/-- The `out:` part of `uv_pipe_connect`. -/
def pipeConnectOut (cb : Bool) (err : ℤ) : State :=
  let s := { s with delayedError := err }.connectSubmit cb
  if err ≠ 0 then s.ioFeed else s

/-- `sock` is the new socket of a handle without one, or the error of `uv__socket`.
mirrors unix/pipe.c:174-244 -/
def pipeConnect (cb : Bool) (sock : Except ℤ ℤ) (r : ConnectResult) : Except Fault State :=
  if s.type ≠ .pipe then .error .crash
  else
    let newSock := decide (s.fd = -1)
    match if newSock then sock else .ok s.fd with
    | .error e => if e < 0 then .ok (s.pipeConnectOut cb e) else .error .stuck
    | .ok fd =>
      if fd < 0 then .error .stuck
      else
        let s := { s with fd := fd }
        match r with
        | .refused => .ok (s.pipeConnectOut cb UV_ECONNREFUSED)
        | .error e => if e < 0 ∧ e ≠ UV_EINPROGRESS then .ok (s.pipeConnectOut cb e) else .error .stuck
        | .ok | .inProgress => do
          let s ← (if newSock then s.setReadWrite else s).ioStartOut
          .ok (s.pipeConnectOut cb 0)

/-- `uv__check_before_write` lets the write through; `send` is the send handle, if any, with
whether it has an fd.
mirrors unix/stream.c:1459-1496 -/
def checkBeforeWrite (send : Option Bool) : Bool :=
  decide (0 ≤ s.fd) && s.flags.writable &&
    match send with
    | none => true
    | some hasFd => decide (s.type = .pipe) && s.ipc && hasFd

def writeRequest (bufs : List Buf) (send : Option Bool) (cb : Bool) : WriteReq :=
  { id := s.nextId, bufs := some bufs, writeIndex := 0, error := 0, sendHandle := send.isSome, cb := cb }

def writeSubmit (bufs : List Buf) (send : Option Bool) (cb : Bool) : State :=
  { s.reqRegister with
    writeQueueSize := (s.writeQueueSize + countBufs bufs) % sizeMax
    writeQueue := s.writeQueue ++ [s.writeRequest bufs send cb]
    calls := s.calls ++ [Call.write bufs cb] }

/-- `bufsml` holds four; `alloc` says whether `malloc` has memory for more.
mirrors unix/stream.c:1499-1577 -/
def write2 (iovmax : ℕ) (bufs : List Buf) (send : Option Bool) (cb : Bool) (alloc : Bool)
    (outs : List Outcome) : Except Fault State :=
  if bufs = [] then .error .crash
  else if s.checkBeforeWrite send = false then .ok s
  else
    let emptyQueue := decide (s.writeQueueSize = 0)
    if 4 < bufs.length ∧ alloc = false then .ok s.reqRegister
    else
      let s := s.writeSubmit bufs send cb
      if s.connectReq.isSome then .ok s
      else if emptyQueue then s.uvWrite iovmax outs
      else if s.flags.blockingWrites then .error .crash
      else s.ioStartOut

/-- mirrors unix/stream.c:1605-1618 -/
def tryWrite2 (iovmax : ℕ) (bufs : List Buf) (o : Outcome) : Except Fault State :=
  if s.connectReq.isSome ∨ s.writeQueueSize ≠ 0 then .ok s
  else if bufs = [] then .error .crash
  else if s.checkBeforeWrite none = false then .ok s
  else do
    let (n, t) ← s.uvTryWrite iovmax s.nextId bufs o
    .ok (if 0 ≤ n then { t with calls := t.calls ++ [Call.tryWrite bufs] } else t)

/-- mirrors unix/stream.c:1309-1342 -/
def shutdown (cb : Bool) : Except Fault State :=
  if ¬ s.flags.writable ∨ s.flags.shut ∨ s.flags.shutting ∨ s.flags.closing then .ok s
  else
    { s.reqRegister with
      shutdownReq := some ⟨s.nextId, cb⟩
      calls := s.calls ++ [Call.shutdown cb]
      flags := { s.flags with shutting := true, writable := false } }.ioStartOut

/-- mirrors unix/stream.c:1621-1647 and libuv/src/uv-common.c:853-873 -/
def readStart : Except Fault State :=
  if s.flags.closing ∨ s.flags.reading ∨ ¬ s.flags.readable then .ok s
  else { s with flags := { s.flags with reading := true, readEof := false }, readCb := true }.ioStartIn

/-- mirrors unix/stream.c:1650-1667 -/
def readStop : State :=
  if s.flags.reading then
    { { s with flags := { s.flags with reading := false } }.ioStopIn with readCb := false }
  else s

/-- `uv__io_close` -/
def ioClose : State :=
  { s with
    pollin := if s.fd = -1 then s.pollin else false
    pollout := if s.fd = -1 then s.pollout else false
    pending := if s.pending = .queued then .stale else s.pending }

/-- mirrors unix/core.c:114-184 and libuv/src/unix/stream.c:1699-1761 -/
def close : Except Fault State :=
  if s.flags.closing then .error .crash
  else
    let s := { s with flags := { s.flags with closing := true } }.ioClose.readStop
    let s := { s with flags := { s.flags with readable := false, writable := false }, fd := -1 }
    if s.pollin ∨ s.pollout then .error .crash else .ok s

end State

/-! ## The system -/

inductive Label
  | open (fd : ℤ) (readable writable : Bool)
  | bind (fd : ℤ) (error : ℤ)
  | tcpConnect (cb : Bool) (sock : State.NewSocket) (r : State.ConnectResult)
  | pipeConnect (cb : Bool) (sock : Except ℤ ℤ) (r : State.ConnectResult)
  | write (bufs : List Buf) (send : Option Bool) (cb : Bool) (alloc : Bool) (outs : List Outcome)
  | tryWrite (bufs : List Buf) (o : Outcome)
  | shutdown (cb : Bool)
  | readStart
  | readStop
  | close
  /-- `uv__io_poll` has events for the watcher -/
  | io (ev : Events) (env : Env)
  /-- `uv__run_pending` takes the watcher -/
  | runPending (env : Env)
  | ret (env : Env)
  /-- `uv__run_closing_handles` -/
  | destroy (env : Env)

def Label.isCall : Label → Bool
  | .io .. | .runPending _ | .ret _ | .destroy _ => false
  | _ => true

/-- What write calls return in the step. -/
def Label.outs : Label → List Outcome
  | .write _ _ _ _ outs => outs
  | .tryWrite _ o => [o]
  | .io _ env | .runPending env | .ret env | .destroy env => env.outs
  | _ => []

/-- The events a watcher gets: some of what it waits for, errors and hangups. -/
def Events.fit (ev : Events) (pollin pollout : Bool) : Bool :=
  (pollin || pollout) && (!ev.rd || pollin) && (!ev.wr || pollout) && (ev.rd || ev.wr || ev.err || ev.hup)

def State.ret (s : State) (iovmax : ℕ) (env : Env) : Except Fault State :=
  match s.pc with
  | .idle => .error .stuck
  | .connectCb error => s.afterConnect error env
  | .allocCb count ev => s.afterAlloc count ev env
  | .readCb next ev => s.afterReadCb iovmax next ev env
  | .eofCb ev => s.afterEof iovmax ev env
  | .writeCb caller => State.runCallbacks caller env s.pq s
  | .shutdownCb => .ok { s with pc := .idle }
  | .destroyConnectCb => { s with connectReq := none }.destroyWrites env
  | .destroyShutdownCb => { s with shutdownReq := none }.destroyEnd

/-- One step. The API may be called at any time up to the end of `uv__stream_destroy`,
`uv_close` once; events, pending watchers and closing handles come when no callback of
the stream is running. -/
def step (iovmax : ℕ) (s : State) : Label → Except Fault State
  | .open fd r w => if s.destroyed then .error .stuck else s.streamOpen fd r w
  | .bind fd e => if s.destroyed then .error .stuck else s.bind fd e
  | .tcpConnect cb sock r => if s.destroyed then .error .stuck else s.tcpConnect cb sock r
  | .pipeConnect cb sock r => if s.destroyed then .error .stuck else s.pipeConnect cb sock r
  | .write bufs send cb alloc outs =>
    if s.destroyed then .error .stuck else s.write2 iovmax bufs send cb alloc outs
  | .tryWrite bufs o => if s.destroyed then .error .stuck else s.tryWrite2 iovmax bufs o
  | .shutdown cb => if s.destroyed then .error .stuck else s.shutdown cb
  | .readStart => if s.destroyed then .error .stuck else s.readStart
  | .readStop => if s.destroyed then .error .stuck else .ok s.readStop
  | .close => if s.destroyed then .error .stuck else s.close
  | .io ev env =>
    if s.pc = .idle ∧ ev.fit s.pollin s.pollout = true then s.streamIo iovmax ev env else .error .stuck
  | .runPending env =>
    if s.pc = .idle ∧ s.pending = .queued then
      { s with pending := .unlinked }.streamIo iovmax ⟨false, true, false, false⟩ env
    else .error .stuck
  | .ret env => s.ret iovmax env
  | .destroy env =>
    if s.pc = .idle ∧ s.flags.closing = true ∧ s.flags.closed = false then s.streamDestroy env
    else .error .stuck

/-- The flags of a handle that is not open; `b` is `UV_HANDLE_BLOCKING_WRITES`, which a TTY
may have. -/
def Flags.none (b : Bool) : Flags := ⟨false, false, false, false, false, false, false, false, false, b⟩

/-- mirrors unix/stream.c:69-116 -/
def streamInit (type : HandleType) (ipc : Bool) (b : Bool) : State :=
  { type := type, ipc := ipc, fd := -1, flags := .none b, readCb := false, connectReq := none,
    shutdownReq := none, delayedError := 0, writeQueue := [], writeCompletedQueue := [], pq := [],
    writeQueueSize := 0, pollin := false, pollout := false, pending := .unlinked, activeReqs := 0,
    pc := .idle, destroyed := false, calls := [], sent := [], called := [] }

def system (iovmax : ℕ) : LTS State Label where
  init s := ∃ type ipc b, s = streamInit type ipc b
  step s l t := step iovmax s l = .ok t

end Libuv.L3.Stream
