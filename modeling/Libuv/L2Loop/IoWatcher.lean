import Mathlib.Tactic
import Mathlib.Data.UInt
import Libuv.Core.LTS

/-!
# I/O watchers and `uv__io_poll` (`core.c`, `epoll.c`)

`libuv/src/unix/core.c` and `epoll.c`. Watchers are `uv__io_t`s with two masks,
`pevents` (wanted) and `events` (told to the kernel); `loop->watchers` maps an fd to its
watcher and has two extra slots behind its `nwatchers` entries, in which `uv__io_poll`
hides the address and the length of its event array while it works through a batch.
`loop->watchers == NULL` is the empty table; an access outside the table, a failed
`assert` and an `abort` are `none`. A watcher is in `watcher_queue` exactly when its
queue node is not self-linked, since a removed node is always reinitialised.

The kernel keeps, for each registered fd, the mask of the last `ADD` or `MOD`; `ADD` of a
registered fd is `EEXIST`, `MOD` and `DEL` of an unregistered one is `ENOENT`. Any other
failure of `epoll_ctl` ends the process and is not a step.

The system: `uv__io_poll` is its registration loop (`poll`), then `epoll_wait` (`wait`,
with any events for registered fds), then one step for each event; the loop's owner
calls `uv__io_start`, `uv__io_stop` and `uv__io_close` outside of `uv__io_poll` and from
the callbacks. `uv__io_init` reuses a watcher that is not live (fresh, or closed with
`uv__io_close`) for an fd of no live watcher, so fd numbers are recycled. The timeout
arithmetic, the metrics and the choice between `epoll_wait` and `epoll_pwait` only decide
whether a pass ends or polls again, which is left open here.
-/
namespace Libuv.L2.IoWatcher

/-! ## Event masks -/

abbrev Mask := BitVec 32

def POLLIN : Mask := 0x001#32
def POLLPRI : Mask := 0x002#32
def POLLOUT : Mask := 0x004#32
def POLLERR : Mask := 0x008#32
def POLLHUP : Mask := 0x010#32
def POLLRDHUP : Mask := 0x2000#32

/-- `POLLIN | POLLOUT | UV__POLLRDHUP | UV__POLLPRI`, what a watcher may ask for. -/
def pollMask : Mask := POLLIN ||| POLLOUT ||| POLLRDHUP ||| POLLPRI

/-- `0 == (a & ~b)`. -/
def Mask.sub (a b : Mask) : Prop := a &&& ~~~b = 0

instance (a b : Mask) : Decidable (a.sub b) := by unfold Mask.sub; infer_instance

/-! ## State -/

/-- `fd`, `events` and `pevents` of a `uv__io_t`. -/
structure Io where
  fd : ℤ
  events : Mask
  pevents : Mask

/-- An entry of `loop->watchers`: a watcher, or in the two extra slots the event array
and its length. -/
inductive Cell (W : Type*)
  | null
  | watcher (w : W)
  | events
  | count (n : ℕ)
  deriving DecidableEq

/-- `struct epoll_event` -/
structure EpollEvent where
  fd : ℤ
  events : Mask
  deriving DecidableEq

/-- The frame of `uv__io_poll` while it works through a batch: the array on its stack,
the index, `have_signals`, and whether a callback is running; `signalled` once the
signal watcher's callback has been called. -/
structure Batch where
  events : List EpollEvent
  i : ℕ
  haveSignals : Bool
  signalled : Bool
  calling : Bool
  deriving DecidableEq

inductive Pc
  | idle
  | polled
  | batch (b : Batch)
  deriving DecidableEq

structure Loop (W : Type*) where
  watchers : List (Cell W)
  nwatchers : UInt32
  nfds : ℕ
  watcherQueue : List W
  io : W → Io
  /-- between `uv__io_init` and `uv__io_close` -/
  live : W → Bool
  /-- the interest list of `backend_fd` -/
  kernel : ℤ → Option Mask
  pc : Pc

variable {W : Type*} [DecidableEq W]

namespace Loop
variable (s : Loop W)

def setIo (w : W) (o : Io) : Loop W := { s with io := Function.update s.io w o }

/-! ## The watcher table -/

/-- mirrors unix/core.c:811-820 -/
def nextPowerOfTwo (val : UInt32) : UInt32 :=
  let val := val - 1
  let val := val ||| val >>> 1
  let val := val ||| val >>> 2
  let val := val ||| val >>> 4
  let val := val ||| val >>> 8
  let val := val ||| val >>> 16
  val + 1

/-- `fake_watcher_list` and `fake_watcher_count`.
mirrors unix/core.c:832-839 -/
def fakeSlots : Option (Cell W × Cell W) :=
  if s.watchers = [] then some (.null, .null)
  else
    match s.watchers[s.nwatchers.toNat]?, s.watchers[s.nwatchers.toNat + 1]? with
    | some a, some b => some (a, b)
    | _, _ => none

/-- `uv__reallocf` of 0 bytes is `NULL`.
mirrors unix/core.c:822-854 -/
def maybeResize (len : UInt32) : Option (Loop W) :=
  if len ≤ s.nwatchers then some s
  else
    match s.fakeSlots with
    | none => none
    | some (fakeWatcherList, fakeWatcherCount) =>
      let nwatchers := nextPowerOfTwo (len + 2) - 2
      if nwatchers + 2 = 0 then none
      else
        some { s with
          watchers := s.watchers.take s.nwatchers.toNat ++
            List.replicate (nwatchers.toNat - s.nwatchers.toNat) .null ++
            [fakeWatcherList, fakeWatcherCount]
          nwatchers := nwatchers }

/-- mirrors unix/core.c:857-875 -/
def ioInit (w : W) (fd : ℤ) : Loop W :=
  { s.setIo w { fd := fd, events := 0, pevents := 0 } with live := Function.update s.live w true }

/-- `if (QUEUE_EMPTY(&w->watcher_queue)) QUEUE_INSERT_TAIL(&loop->watcher_queue, ..)`. -/
def enqueue (w : W) : Loop W :=
  if w ∈ s.watcherQueue then s else { s with watcherQueue := s.watcherQueue ++ [w] }

/-- `INT_MAX` -/
def intMax : ℤ := 2147483647

/-- mirrors unix/core.c:879-904 -/
def ioStart (w : W) (events : Mask) : Option (Loop W) :=
  if ¬ events.sub pollMask ∨ events = 0 ∨ (s.io w).fd < 0 ∨ intMax ≤ (s.io w).fd then none
  else
    let fd := (s.io w).fd.toNat
    let s := s.setIo w { s.io w with pevents := (s.io w).pevents ||| events }
    match s.maybeResize (UInt32.ofNat fd + 1) with
    | none => none
    | some s =>
      if (s.io w).events = (s.io w).pevents then some s
      else
        let s := s.enqueue w
        match s.watchers[fd]? with
        | some .null => some { s with watchers := s.watchers.set fd (.watcher w), nfds := s.nfds + 1 }
        | some _ => some s
        | none => none

/-- mirrors unix/core.c:909-943 -/
def ioStop (w : W) (events : Mask) : Option (Loop W) :=
  if ¬ events.sub pollMask ∨ events = 0 then none
  else if (s.io w).fd = -1 then some s
  else if (s.io w).fd < 0 then none
  else
    let fd := (s.io w).fd.toNat
    if s.nwatchers.toNat ≤ fd then some s
    else
      let pevents := (s.io w).pevents &&& ~~~events
      if pevents = 0 then
        let s := { s.setIo w { s.io w with events := 0, pevents := 0 } with
          watcherQueue := s.watcherQueue.erase w }
        match s.watchers[fd]? with
        | none => none
        | some c =>
          if c = .watcher w then
            if s.nfds = 0 then none
            else some { s with watchers := s.watchers.set fd .null, nfds := s.nfds - 1 }
          else some s
      else some ((s.setIo w { s.io w with pevents := pevents }).enqueue w)

/-! ## The kernel's side -/

inductive CtlOp
  | add | mod | del
  deriving DecidableEq

inductive Errno
  | eexist | enoent
  deriving DecidableEq

/-- `epoll_ctl` on an open, pollable fd. -/
def epollCtl (op : CtlOp) (fd : ℤ) (events : Mask) : Except Errno (Loop W) :=
  match op with
  | .add => if (s.kernel fd).isSome then .error .eexist
            else .ok { s with kernel := Function.update s.kernel fd (some events) }
  | .mod => if (s.kernel fd).isSome then .ok { s with kernel := Function.update s.kernel fd (some events) }
            else .error .enoent
  | .del => if (s.kernel fd).isSome then .ok { s with kernel := Function.update s.kernel fd none }
            else .error .enoent

/-- `epoll_ctl(.., EPOLL_CTL_DEL, ..)` with its result ignored. -/
def ctlDel (fd : ℤ) : Loop W :=
  match s.epollCtl .del fd 0 with
  | .ok s => s
  | .error _ => s

/-- `if (events[i].data.fd == fd) events[i].data.fd = -1` for `i < nfds`. -/
def invalidate (nfds : ℕ) (fd : ℤ) (events : List EpollEvent) : List EpollEvent :=
  (events.take nfds).map (fun e => if e.fd = fd then { e with fd := -1 } else e) ++ events.drop nfds

/-- mirrors unix/epoll.c:49-79; `backend_fd` is open. -/
def platformInvalidateFd (fd : ℤ) : Option (Loop W) :=
  if s.watchers = [] ∨ fd < 0 then none
  else
    match s.watchers[s.nwatchers.toNat]?, s.watchers[s.nwatchers.toNat + 1]? with
    | some .null, some _ => some (s.ctlDel fd)
    | some .events, some (.count nfds) =>
      -- the address is the array of the frame that is running
      match s.pc with
      | .batch b => some ({ s with pc := .batch { b with events := invalidate nfds fd b.events } }.ctlDel fd)
      | _ => none
    | _, _ => none

/-- mirrors unix/core.c:946-953 -/
def ioClose (w : W) : Option (Loop W) :=
  match s.ioStop w pollMask with
  | none => none
  | some s =>
    let s := { s with live := Function.update s.live w false }
    if (s.io w).fd ≠ -1 then s.platformInvalidateFd (s.io w).fd else some s

/-! ## `uv__io_poll` -/

/-- One round of the registration loop, `w` taken off the queue.
mirrors unix/epoll.c:145-189 -/
def register (w : W) : Option (Loop W) :=
  let o := s.io w
  if o.pevents = 0 ∨ o.fd < 0 ∨ s.nwatchers.toNat ≤ o.fd.toNat then none
  else
    let op := if o.events = 0 then CtlOp.add else .mod
    let done (s : Loop W) : Loop W := s.setIo w { o with events := o.pevents }
    match s.epollCtl op o.fd o.pevents with
    | .ok s => some (done s)
    | .error e =>
      if e ≠ .eexist ∨ op ≠ .add then none
      else
        match s.epollCtl .mod o.fd o.pevents with
        | .ok s => some (done s)
        | .error _ => none

def registerAll : List W → Loop W → Option (Loop W)
  | [], s => some s
  | w :: rest, s =>
    match ({ s with watcherQueue := rest } : Loop W).register w with
    | none => none
    | some s => registerAll rest s

/-- The head of `uv__io_poll`: back to the caller with nothing to watch, or on to
`epoll_wait` with everything registered.
mirrors unix/epoll.c:137-189 -/
def pollHead : Option (Loop W) :=
  if s.nfds = 0 then if s.watcherQueue = [] then some s else none
  else
    match registerAll s.watcherQueue s with
    | none => none
    | some s => some { s with pc := .polled }

/-- `epoll_wait` has returned `events`.
mirrors unix/epoll.c:311-326 -/
def waited (events : List EpollEvent) : Option (Loop W) :=
  if s.watchers = [] then none
  else some { s with
    watchers := (s.watchers.set s.nwatchers.toNat .events).set (s.nwatchers.toNat + 1)
      (.count events.length)
    pc := .batch { events := events, i := 0, haveSignals := false, signalled := false, calling := false } }

/-- The mask handed to a callback.
mirrors unix/epoll.c:359-378 -/
def deliverable (reported pevents : Mask) : Mask :=
  let e := reported &&& (pevents ||| POLLERR ||| POLLHUP)
  if e = POLLERR ∨ e = POLLHUP then e ||| (pevents &&& pollMask) else e

/-- One round of the loop over the batch; with it the callback to run, if any.
mirrors unix/epoll.c:328-395 -/
def dispatch (sig : Option W) (b : Batch) (pe : EpollEvent) : Option (Loop W × Option (W × Mask)) :=
  let next : Loop W := { s with pc := .batch { b with i := b.i + 1, calling := false } }
  if pe.fd = -1 then some (next, none)
  else if pe.fd < 0 ∨ s.nwatchers.toNat ≤ pe.fd.toNat then none
  else
    match s.watchers[pe.fd.toNat]? with
    | some .null => some (next.ctlDel pe.fd, none)
    | some (.watcher w) =>
      let e := deliverable pe.events (s.io w).pevents
      if e = 0 then some (next, none)
      else if sig = some w then
        some ({ s with pc := .batch { b with i := b.i + 1, calling := false, haveSignals := true } }, none)
      else some ({ s with pc := .batch { b with i := b.i + 1, calling := true } }, some (w, e))
    | _ => none

/-- The end of a batch: the two slots are cleared.
mirrors unix/epoll.c:408-409 -/
def finishBatch (pc : Pc) : Loop W :=
  { s with
    watchers := (s.watchers.set s.nwatchers.toNat .null).set (s.nwatchers.toNat + 1) .null
    pc := pc }

end Loop

/-! ## The system -/

inductive Label (W : Type*)
  | init (w : W) (fd : ℤ)
  | start (w : W) (events : Mask)
  | stop (w : W) (events : Mask)
  | close (w : W) (fd : ℤ)
  | poll
  | wait (events : List EpollEvent)
  | next
  | deliver (i : ℕ) (w : W) (events : Mask)
  | deliverSignal (events : Mask)
  | finish
  | ret

/-- The owner's code runs: outside of `uv__io_poll`, or in a callback. -/
def Loop.Calls (s : Loop W) : Prop :=
  match s.pc with
  | .idle => True
  | .polled => False
  | .batch b => b.calling = true

/-- `sig` is `loop->signal_io_watcher`, if the loop has one: it is only ever started for
`POLLIN`, and not stopped or closed while the loop runs (signal.c:263-299). -/
inductive Step (sig : Option W) : Loop W → Label W → Loop W → Prop
  | init {s : Loop W} {w : W} {fd : ℤ} (h : s.Calls) (hl : s.live w = false) (hfd : -1 ≤ fd)
      (hd : fd ≠ -1 → ∀ w', s.live w' = true → (s.io w').fd ≠ fd) :
      Step sig s (.init w fd) (s.ioInit w fd)
  | start {s t : Loop W} {w : W} {events : Mask} (h : s.Calls) (hl : s.live w = true)
      (hs : sig = some w → events = POLLIN) (ht : s.ioStart w events = some t) :
      Step sig s (.start w events) t
  | stop {s t : Loop W} {w : W} {events : Mask} (h : s.Calls) (hl : s.live w = true) (hs : sig ≠ some w)
      (ht : s.ioStop w events = some t) : Step sig s (.stop w events) t
  | close {s t : Loop W} {w : W} (h : s.Calls) (hl : s.live w = true) (hs : sig ≠ some w)
      (ht : s.ioClose w = some t) : Step sig s (.close w (s.io w).fd) t
  | poll {s t : Loop W} (h : s.pc = .idle) (ht : s.pollHead = some t) : Step sig s .poll t
  | wait {s t : Loop W} {events : List EpollEvent} (h : s.pc = .polled) (hn : events ≠ [])
      (hk : ∀ e ∈ events, (s.kernel e.fd).isSome) (hl : events.length ≤ 1024)
      (ht : s.waited events = some t) : Step sig s (.wait events) t
  | next {s t : Loop W} {b : Batch} {pe : EpollEvent} (h : s.pc = .batch b)
      (hi : b.events[b.i]? = some pe) (ht : s.dispatch sig b pe = some (t, none)) : Step sig s .next t
  | deliver {s t : Loop W} {b : Batch} {pe : EpollEvent} {w : W} {events : Mask} (h : s.pc = .batch b)
      (hi : b.events[b.i]? = some pe) (ht : s.dispatch sig b pe = some (t, some (w, events))) :
      Step sig s (.deliver b.i w events) t
  | deliverSignal {s : Loop W} {b : Batch} (h : s.pc = .batch b) (hi : b.i = b.events.length)
      (hs : b.haveSignals = true) (hn : b.signalled = false) :
      Step sig s (.deliverSignal POLLIN) { s with pc := .batch { b with signalled := true, calling := true } }
  | finish {s : Loop W} {b : Batch} {pc : Pc} (h : s.pc = .batch b) (hi : b.i = b.events.length)
      (hs : b.haveSignals = b.signalled)
      (hpc : pc = .idle ∨ pc = .polled ∧ b.haveSignals = false) : Step sig s .finish (s.finishBatch pc)
  | ret {s : Loop W} (h : s.pc = .polled) : Step sig s .ret { s with pc := .idle }

/-- The state of a loop before its first watcher is initialised.
mirrors unix/loop.c:30-75 -/
def Loop.fresh (s : Loop W) : Prop :=
  s.watchers = [] ∧ s.nwatchers = 0 ∧ s.nfds = 0 ∧ s.watcherQueue = [] ∧ (∀ w, s.io w = ⟨-1, 0, 0⟩) ∧
    (∀ w, s.live w = false) ∧ (∀ fd, s.kernel fd = none) ∧ s.pc = .idle

def system (sig : Option W) : LTS (Loop W) (Label W) where
  init := Loop.fresh
  step := Step sig

end Libuv.L2.IoWatcher
