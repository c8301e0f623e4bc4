import Libuv.Core.LTS
import Mathlib.Tactic

/-!
# UDP handles (`udp.c`)

One `uv_udp_t`: the two queues of its send requests, the counters, what its `io_watcher` is armed for and where the
node of the watcher is. A request is known by the number of its submission; `bufs` are the lengths of its buffers. The
kernel answers a batch of datagrams; within one call of `uv__udp_sendmsg` the batches are different, so that an
arbitrary function of the batch is an arbitrary kernel.

A step is a call of the user (outside of libuv, in `alloc_cb`, `recv_cb` or `send_cb`), an event of the poller, the
pending queue of the loop, one iteration of `uv__udp_run_completed`, or a part of `uv__udp_recvmsg` between two
callbacks; the bound of 32 rounds of its loop is left out. After `uv_close` the user does not touch the handle.

`next`, `accepted`, `sent`, `done`, `called`, `badCalls` and `atClose` are written down for the statements: the
submissions so far, the requests accepted, the datagrams that the kernel took, the requests that
`uv__udp_run_completed` has taken off, the callbacks run, the system calls made with descriptor -1, and
`write_queue` when `uv_close` was called.
-/
namespace Libuv.L3.Udp

def sizeMax : ℕ := 2 ^ 64

/-- `UV__MMSG_MAXWIDTH` -/
def maxWidth : ℕ := 20

def EBADF : ℕ := 9

def ECANCELED : ℕ := 125

/-- `uv_udp_send_t`; `sendCb` is whether there is a callback. -/
structure Req where
  seq : ℕ
  bufs : List ℕ
  sendCb : Bool
  deriving DecidableEq

/-- `status` of a completed request: not negative, or `UV__ERR(errno)`. -/
inductive Status where
  | sent (n : ℕ)
  | err (errno : ℕ)
  deriving DecidableEq

/-- What `sendmmsg` or `sendmsg` returns: `npkts = n + 1` (or a size), an error, or one of `EAGAIN`, `EWOULDBLOCK`
and `ENOBUFS`. -/
inductive Result where
  | sent (n : ℕ)
  | error (errno : ℕ)
  | again
  deriving DecidableEq

abbrev Kernel := List Req → Result

/-- The kernel does not send more than it is given. -/
def Kernel.Sane (k : Kernel) : Prop := ∀ batch n, k batch = .sent n → n < batch.length

/-- The pending queue node of the watcher: linked to itself, in a pending queue, or taken out of one by `uv__io_close` with
its own links left. -/
inductive Node where
  | out
  | linked
  | stale
  deriving DecidableEq

/-- Outside of libuv; in `alloc_cb`, in `recv_cb`, of a `uv__udp_io` whose events have `POLLOUT` too or not, `last` if
`uv__udp_recvmsg` returns behind it; in `uv__udp_run_completed`, called by `uv__udp_finish_close` or not, before its
loop's test or in a `send_cb`; closed. -/
inductive Pc where
  | idle
  | alloc (pollout : Bool)
  | recv (pollout last : Bool)
  | completing (finish : Bool)
  | calling (finish : Bool)
  | closed
  deriving DecidableEq

structure State where
  writeQueue : List Req
  writeCompletedQueue : List (Req × Status)
  sendQueueSize : ℕ
  sendQueueCount : ℕ
  processing : Bool
  pollin : Bool
  pollout : Bool
  node : Node
  recvCb : Bool
  active : Bool
  closing : Bool
  pc : Pc
  next : ℕ
  accepted : List Req
  sent : List ℕ
  done : List (Req × Status)
  called : List ℕ
  badCalls : ℕ
  atClose : List Req
  deriving DecidableEq

/-- mirrors uv-common.c:587-596 -/
def countBufs (bufs : List ℕ) : ℕ := bufs.sum % sizeMax

section Source
variable (s : State)

/-- mirrors unix/core.c:956-959 -/
def ioFeed : State := if s.node = .out then { s with node := .linked } else s

/-- A system call on the socket; `fd` is -1 from `uv_close` on. -/
def call : State := if s.closing then { s with badCalls := s.badCalls + 1 } else s

/-! ## Sending -/

/-- From `write_queue_drain` on. Every turn takes a request at least, so that the length of the queue is fuel enough.
mirrors unix/udp.c:326-403 -/
def writeQueueDrain (k : Kernel) : ℕ → State → State
  | 0, s => s
  | fuel + 1, s =>
    let batch := s.writeQueue.take maxWidth
    match k batch with
    | .again => call s
    | .error errno =>
      let s := call s
      ioFeed { s with
        writeQueue := s.writeQueue.drop batch.length
        writeCompletedQueue := s.writeCompletedQueue ++ batch.map fun req => (req, .err errno) }
    | .sent n =>
      let s := call s
      let reqs := s.writeQueue.take (n + 1)
      let s : State := { s with
        writeQueue := s.writeQueue.drop (n + 1)
        writeCompletedQueue := s.writeCompletedQueue ++ reqs.map fun req => (req, .sent (req.bufs.headD 0))
        sent := s.sent ++ reqs.map (·.seq) }
      if s.writeQueue = [] then ioFeed s else writeQueueDrain k fuel s

/-- mirrors unix/udp.c:315-405 -/
def sendmmsg (k : Kernel) : State := if s.writeQueue = [] then s else writeQueueDrain k s.writeQueue.length s

/-- The loop of `uv__udp_sendmsg`.
mirrors unix/udp.c:421-468 -/
def sendLoop (k : Kernel) : ℕ → State → State
  | 0, s => s
  | fuel + 1, s =>
    match s.writeQueue with
    | [] => s
    | req :: rest =>
      match k [req] with
      | .again => call s
      | .error errno =>
        let s := call s
        sendLoop k fuel (ioFeed { s with
          writeQueue := rest, writeCompletedQueue := s.writeCompletedQueue ++ [(req, .err errno)] })
      | .sent _ =>
        let s := call s
        sendLoop k fuel (ioFeed { s with
          writeQueue := rest
          writeCompletedQueue := s.writeCompletedQueue ++ [(req, .sent (countBufs req.bufs))]
          sent := s.sent ++ [req.seq] })

/-- What a system call on the socket can return: descriptor -1 is none. -/
def onFd (k : Kernel) : Kernel := if s.closing then fun _ => .error EBADF else k

/-- `mmsg` is `uv__sendmmsg_avail`.
mirrors unix/udp.c:408-469 -/
def sendmsg (mmsg : Bool) (k : Kernel) : State :=
  if mmsg then sendmmsg s (onFd s k) else sendLoop (onFd s k) s.writeQueue.length s

/-- `err` if the deferred bind or the allocation fails.
mirrors unix/udp.c:731-799 -/
def send (mmsg : Bool) (bufs : List ℕ) (sendCb err : Bool) (k : Kernel) : State :=
  if err then s
  else
    let emptyQueue : Bool := s.sendQueueCount = 0
    let req : Req := ⟨s.next, bufs, sendCb⟩
    let s : State := { s with
      sendQueueSize := (s.sendQueueSize + countBufs bufs) % sizeMax
      sendQueueCount := (s.sendQueueCount + 1) % sizeMax
      writeQueue := s.writeQueue ++ [req]
      active := true
      next := s.next + 1
      accepted := s.accepted ++ [req] }
    if emptyQueue && !s.processing then
      let s := sendmsg s mmsg k
      if s.writeQueue ≠ [] then { s with pollout := true } else s
    else { s with pollout := true }

/-- mirrors unix/udp.c:802-838 -/
def trySend (bufs : List ℕ) (err : Bool) (k : Kernel) : State :=
  if s.sendQueueCount ≠ 0 then s
  else if err then s
  else
    let req : Req := ⟨s.next, bufs, false⟩
    let s := call { s with next := s.next + 1 }
    match k [req] with
    | .sent _ => { s with sent := s.sent ++ [req.seq] }
    | _ => s

/-! ## Receiving, completing, closing -/

/-- mirrors unix/udp.c:1380-1402 -/
def recvStart : State := if s.pollin then s else { s with recvCb := true, pollin := true, active := true }

/-- mirrors unix/udp.c:1405-1415 -/
def recvStop : State :=
  let s : State := { s with pollin := false }
  let s := if s.pollout then s else { s with active := false }
  { s with recvCb := false }

/-- `uv__udp_run_completed` up to its loop; the assertion is its guard.
mirrors unix/udp.c:127-132 -/
def runCompleted (finish : Bool) : Option State :=
  if s.processing then none else some { s with processing := true, pc := .completing finish }

/-- One iteration up to the callback, or what is behind the loop.
mirrors unix/udp.c:134-168 -/
def completeNext (finish : Bool) : State :=
  match s.writeCompletedQueue with
  | c :: rest =>
    { s with
      writeCompletedQueue := rest
      sendQueueSize := (s.sendQueueSize + (sizeMax - countBufs c.1.bufs)) % sizeMax
      sendQueueCount := (s.sendQueueCount + (sizeMax - 1)) % sizeMax
      done := s.done ++ [c]
      called := if c.1.sendCb then s.called ++ [c.1.seq] else s.called
      pc := if c.1.sendCb then .calling finish else .completing finish }
  | [] =>
    let s : State :=
      if s.writeQueue = [] then
        let s : State := if s.closing then s else { s with pollout := false }
        if s.pollin then s else { s with active := false }
      else s
    { s with processing := false, pc := if finish then .closed else .idle }

/-- The part of `uv__udp_io` for `POLLOUT`.
mirrors unix/udp.c:180-183 -/
def writable (mmsg : Bool) (k : Kernel) : Option State := runCompleted (sendmsg s mmsg k) false

/-- `uv__udp_close`, as `uv_close` calls it.
mirrors unix/udp.c:88-96 and libuv/src/unix/core.c:933-943 -/
def close : State :=
  { s with
    closing := true
    pollin := false
    pollout := false
    node := if s.node = .linked then .stale else s.node
    active := false
    atClose := s.writeQueue }

/-- mirrors unix/udp.c:99-117 -/
def finishClose : Option State :=
  if s.pollin || s.pollout then none
  else
    runCompleted
      { s with
        writeQueue := []
        writeCompletedQueue := s.writeCompletedQueue ++ s.writeQueue.map fun req => (req, .err ECANCELED) } true

end Source

/-! ## The system -/

inductive Label where
  | send (bufs : List ℕ) (sendCb err : Bool) (k : Kernel)
  | trySend (bufs : List ℕ) (err : Bool) (k : Kernel)
  | recvStart
  | recvStop
  | close
  | event (pollin pollout : Bool) (k : Kernel)
  | runPending (k : Kernel)
  | recvmsg (gotBuf chunks : Bool)
  | chunk
  | again
  | received (k : Kernel)
  | next
  | ret
  | finishClose

def Pc.Calls : Pc → Prop
  | .idle | .alloc _ | .recv _ _ | .calling _ => True
  | _ => False

instance (pc : Pc) : Decidable pc.Calls := by
  unfold Pc.Calls; split <;> infer_instance

/-- The handle may be used: it is not closing, and the user's code runs. -/
def Own (s : State) : Prop := s.closing = false ∧ s.pc.Calls

instance (s : State) : Decidable (Own s) := by unfold Own; infer_instance

/-- One step. Requests are objects of one address space: fewer than 2^64 are queued. The poller delivers what
the watcher is armed for; `recvmsg` is behind `alloc_cb`, with `chunks` if `recvmmsg` has returned datagrams (only then a
`recv_cb` that `alloc_cb` has cleared is not called), `chunk` another `recv_cb` for the same `recvmmsg`, `again` the next round
of `uv__udp_recvmsg`, `received` its end. -/
def step (mmsg : Bool) (s : State) : Label → Option State
  | .send bufs sendCb err k =>
    if Own s ∧ bufs ≠ [] ∧ s.writeQueue.length + s.writeCompletedQueue.length + 1 < sizeMax then
      some (send s mmsg bufs sendCb err k)
    else none
  | .trySend bufs err k => if Own s ∧ bufs ≠ [] then some (trySend s bufs err k) else none
  | .recvStart => if Own s then some (recvStart s) else none
  | .recvStop => if Own s then some (recvStop s) else none
  | .close => if Own s then some (close s) else none
  | .event pollin pollout k =>
    if s.pc = .idle ∧ s.closing = false ∧ (pollin = true → s.pollin = true ∧ s.recvCb = true) ∧
        (pollout = true → s.pollout = true) then
      if pollin then some { s with pc := .alloc pollout }
      else if pollout then writable s mmsg k
      else some s
    else none
  | .runPending k => if s.pc = .idle ∧ s.node = .linked then writable { s with node := .out } mmsg k else none
  | .recvmsg gotBuf chunks =>
    match s.pc with
    | .alloc pollout =>
      if gotBuf then
        if s.recvCb then some { call s with pc := .recv pollout false }
        else if chunks then some { call s with pc := .recv pollout true }
        else none
      else if s.recvCb then some { s with pc := .recv pollout true }
      else none
    | _ => none
  | .chunk =>
    match s.pc with
    | .recv _ false => if s.recvCb then some s else none
    | _ => none
  | .again =>
    match s.pc with
    | .recv pollout false => if s.closing = false ∧ s.recvCb = true then some { s with pc := .alloc pollout } else none
    | _ => none
  | .received k =>
    match s.pc with
    | .recv pollout _ => if pollout then writable s mmsg k else some { s with pc := .idle }
    | _ => none
  | .next =>
    match s.pc with
    | .completing finish => some (completeNext s finish)
    | _ => none
  | .ret =>
    match s.pc with
    | .calling finish => some { s with pc := .completing finish }
    | _ => none
  | .finishClose => if s.pc = .idle ∧ s.closing = true then finishClose s else none

def Label.Sane : Label → Prop
  | .send _ _ _ k | .trySend _ _ k | .event _ _ k | .runPending k | .received k => k.Sane
  | _ => True

def State.fresh : State where
  writeQueue := []
  writeCompletedQueue := []
  sendQueueSize := 0
  sendQueueCount := 0
  processing := false
  pollin := false
  pollout := false
  node := .out
  recvCb := false
  active := false
  closing := false
  pc := .idle
  next := 0
  accepted := []
  sent := []
  done := []
  called := []
  badCalls := 0
  atClose := []

def system (mmsg : Bool) : LTS State Label where
  init s := s = State.fresh
  step s l t := l.Sane ∧ step mmsg s l = some t

end Libuv.L3.Udp
