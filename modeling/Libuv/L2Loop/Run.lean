import Libuv.L2Loop.TimerRun

/-!
# The event loop (`core.c`)

`uv_run` over the timers of `timer.c`. Of the other handles only what the loop reads is here: their
flags, the queues of `loop-watcher.c` (a list each; `queue` is the one on the stack of `uv__run_name`),
and `closing_handles`, with `detached` the list `uv__run_closing_handles` has taken. `pendingQueue`
and `pq` hold I/O watchers. A handle is known by a name of its own, so memory used again is another
handle; `active_handles` is the counter of the timers' model.

`pc` says where `uv_run` is. A library step is the code from there up to the next callback, the call of
`uv__io_poll`, or the return; while a callback runs, and in `uv__io_poll`, the calls of the API are steps of their
own, so a callback can be any sequence of them. A step returns `none` where it is not allowed.
The clock is read by the steps that update `loop->time`.
-/
namespace Libuv.L2.Run
open Handle (Flags uintMax handleInit handleStart handleStop handleRef handleUnref)
open Libuv.L1.HeapInl (heapMin heapInit HeapNode)
open Timer (u64)

variable {α : Type*} [DecidableEq α]

/-- `INT_MAX` -/
def intMax : ℕ := 2 ^ 31 - 1

inductive Kind
  | idle | prepare | check
  deriving DecidableEq

/-- A timer, a handle of `loop-watcher.c`, or another one. -/
inductive Name (α : Type*)
  | timer (x : α)
  | watcher (k : Kind) (i : ℕ)
  | other (i : ℕ)
  deriving DecidableEq

inductive Mode
  | default | once | noWait
  deriving DecidableEq

/-- `top` is the loop condition with `r`, `timers` the first or the last pass over the timers, `poll` the
inside of `uv__io_poll`. -/
inductive Pc
  | out
  | top (r : Bool)
  | timers (last : Bool)
  | pending
  | pendingCb
  | walk (k : Kind)
  | walkCb (k : Kind)
  | poll (timeout : ℤ)
  | closing
  | closeCb
  deriving DecidableEq

structure Watchers where
  flags : ℕ → Flags
  handles : List ℕ
  queue : List ℕ

/-- `result` is what `uv_run` returned last. -/
structure Loop (α : Type*) where
  timer : Timer.Loop α
  watchers : Kind → Watchers
  others : ℕ → Flags
  activeReqs : ℕ
  pendingQueue : List ℕ
  pq : List ℕ
  closingHandles : List (Name α)
  detached : List (Name α)
  stopFlag : Bool
  mode : Mode
  ranPending : Bool
  pc : Pc
  result : Option Bool

namespace Loop
variable (s : Loop α)

/-! ## Handles -/

def flags : Name α → Flags
  | .timer x => (s.timer.timers x).flags
  | .watcher k i => (s.watchers k).flags i
  | .other i => s.others i

def setActive (n : ℕ) : Loop α := { s with timer := { s.timer with activeHandles := n } }

def put (k : Kind) (w : Watchers) : Loop α := { s with watchers := Function.update s.watchers k w }

def setFlags (f : Flags) : Name α → Loop α
  | .timer x => { s with timer := { s.timer with toTimers := s.timer.put x { s.timer.timers x with flags := f } } }
  | .watcher k i => s.put k { s.watchers k with flags := Function.update (s.watchers k).flags i f }
  | .other i => { s with others := Function.update s.others i f }

/-- One of the macros of `uv-common.h`. -/
def flag (h : Name α) (m : Flags → ℕ → Flags × ℕ) : Loop α :=
  let (f, n) := m (s.flags h) s.timer.activeHandles
  (s.setFlags f h).setActive n

/-- mirrors unix/core.c:326-331 -/
def loopAlive : Bool :=
  decide (0 < s.timer.activeHandles) || decide (0 < s.activeReqs) || !s.pendingQueue.isEmpty || !s.closingHandles.isEmpty

def onTimer (l : Timer.Label α) : Option (Loop α) := (Timer.step s.timer l).map fun t => { s with timer := t }

/-! ## The API -/

/-- mirrors unix/loop-watcher.c:34-47 -/
def watcherStart (k : Kind) (i : ℕ) (cb : Bool) : Loop α :=
  if (s.flags (.watcher k i)).active then s
  else if cb = false then s
  else (s.put k { s.watchers k with handles := i :: (s.watchers k).handles }).flag (.watcher k i) handleStart

/-- mirrors unix/loop-watcher.c:49-57 -/
def watcherStop (k : Kind) (i : ℕ) : Loop α :=
  if (s.flags (.watcher k i)).active = false then s
  else
    let w := s.watchers k
    (s.put k { w with handles := w.handles.erase i, queue := w.queue.erase i }).flag (.watcher k i) handleStop

/-- The close routines, behind `handle->flags |= UV_HANDLE_CLOSING`. -/
def closeRoutine : Name α → Option (Loop α)
  | .timer x => s.onTimer (.close x)
  | .watcher k i => some ((s.setFlags { s.flags (.watcher k i) with closing := true } (.watcher k i)).watcherStop k i)
  | .other i => some ((s.setFlags { s.flags (.other i) with closing := true } (.other i)).flag (.other i) handleStop)

/-- mirrors unix/core.c:214-219 -/
def makeClosePending (h : Name α) : Option (Loop α) :=
  if (s.flags h).closing && !(s.flags h).closed then some { s with closingHandles := h :: s.closingHandles } else none

/-- `later` is a handle that is not finished with, as a `uv_fs_poll_t` may be.
mirrors unix/core.c:114-184 -/
def uvClose (h : Name α) (later : Bool) : Option (Loop α) :=
  if (s.flags h).isClosing then none
  else (s.closeRoutine h).bind fun s => if later then some s else s.makeClosePending h

/-- `uv__io_feed` -/
def ioFeed (w : ℕ) : Loop α :=
  if w ∈ s.pendingQueue ∨ w ∈ s.pq then s else { s with pendingQueue := s.pendingQueue ++ [w] }

/-- `uv__io_close`, of a watcher that may be pending. -/
def ioClose (w : ℕ) : Loop α := { s with pendingQueue := s.pendingQueue.erase w, pq := s.pq.erase w }

/-! ## The timeout -/

/-- mirrors timer.c:160-178 -/
def nextTimeout : ℤ :=
  match heapMin s.timer.heap with
  | none => -1
  | some x =>
    if (s.timer.timers x).timeout ≤ s.timer.time then 0
    else (min ((s.timer.timers x).timeout - s.timer.time) intMax : ℕ)

/-- mirrors unix/core.c:355-364 -/
def backendTimeout : ℤ :=
  if s.stopFlag = false ∧ (0 < s.timer.activeHandles ∨ 0 < s.activeReqs) ∧ s.pendingQueue = [] ∧
      (s.watchers .idle).handles = [] ∧ s.closingHandles = [] then s.nextTimeout
  else 0

/-! ## `uv_run` -/

/-- `uv__run_name` takes its queue. -/
def enterWalk (k : Kind) : Loop α :=
  { s.put k { s.watchers k with handles := [], queue := (s.watchers k).handles } with pc := .walk k }

/-- mirrors unix/core.c:789-797 -/
def enterPending : Loop α :=
  if s.pendingQueue = [] then { s with ranPending := false }.enterWalk .idle
  else { s with pq := s.pendingQueue, pendingQueue := [], ranPending := true, pc := .pending }

/-- mirrors unix/core.c:403-410 -/
def enterPoll : Loop α :=
  let timeout := if (s.mode = .once ∧ s.ranPending = false) ∨ s.mode = .default then s.backendTimeout else 0
  { s with pc := .poll timeout }

/-- `uv__update_time` and `uv__run_timers` -/
def enterTimers (now : ℕ) (last : Bool) : Option (Loop α) :=
  (s.onTimer (.updateTime now)).bind fun s => (s.onTimer .run).map fun s => { s with pc := .timers last }

/-- The end of `uv_run`. -/
def finish (r : Bool) : Loop α := { s with stopFlag := false, pc := .out, result := some r }

/-- mirrors unix/core.c:424-429 -/
def bottom : Loop α :=
  if s.mode = .once ∨ s.mode = .noWait then s.finish s.loopAlive else { s with pc := .top s.loopAlive }

/-- `again` is a handle of another type that has to wait for the next pass, as a `uv_signal_t` may.
mirrors unix/core.c:249-297 -/
def finishClose (h : Name α) (again : Bool) : Option (Loop α) :=
  if (s.flags h).closing && !(s.flags h).closed then
    match h with
    | .timer x => (s.onTimer (.finishClose x)).map fun s => { s with pc := .closeCb }
    | .watcher .. => some { s.flag h Handle.finishClose with pc := .closeCb }
    | .other _ => if again then s.makeClosePending h else some { s.flag h Handle.finishClose with pc := .closeCb }
  else none

/-- From here to the next callback, the poll or the return.
mirrors unix/core.c:380-435 -/
def next (now : ℕ) (again : Bool) : Option (Loop α) :=
  match s.pc with
  | .out => none
  | .top r => if r && !s.stopFlag then s.enterTimers now false else some (s.finish r)
  | .timers last =>
    (s.onTimer (match s.timer.pc with | .callback _ => .ret | _ => .next)).map fun s =>
      if s.timer.pc = .idle then (if last then s.bottom else s.enterPending) else s
  | .pending =>
    match s.pq with
    | [] => some (s.enterWalk .idle)
    | _ :: rest => some { s with pq := rest, pc := .pendingCb }
  | .pendingCb => some { s with pc := .pending }
  | .walk k =>
    match (s.watchers k).queue with
    | [] =>
      match k with
      | .idle => some (s.enterWalk .prepare)
      | .prepare => some s.enterPoll
      | .check => some { s with detached := s.closingHandles, closingHandles := [], pc := .closing }
    | i :: rest =>
      some { s.put k { s.watchers k with queue := rest, handles := (s.watchers k).handles ++ [i] } with pc := .walkCb k }
  | .walkCb k => some { s with pc := .walk k }
  | .poll _ => some (s.enterWalk .check)
  | .closing =>
    match s.detached with
    | [] => if s.mode = .once then s.enterTimers now true else some s.bottom
    | h :: rest => { s with detached := rest }.finishClose h again
  | .closeCb => some { s with pc := .closing }

/-- mirrors unix/core.c:380-388 -/
def run (mode : Mode) (now : ℕ) : Option (Loop α) :=
  let r := s.loopAlive
  (if r then some s else s.onTimer (.updateTime now)).map fun s => { s with mode := mode, pc := .top r }

def isUser : Bool :=
  match s.pc with
  | .out | .pendingCb | .walkCb _ | .poll _ | .closeCb => true
  | .timers _ => match s.timer.pc with | .callback _ => true | _ => false
  | _ => false

end Loop

inductive Label (α : Type*)
  /-- of these only what the program calls -/
  | timer (l : Timer.Label α)
  | watcherStart (k : Kind) (i : ℕ) (cb : Bool)
  | watcherStop (k : Kind) (i : ℕ)
  | otherStart (i : ℕ)
  | otherStop (i : ℕ)
  | ref (h : Name α)
  | unref (h : Name α)
  | close (h : Name α) (later : Bool)
  | closePending (i : ℕ)
  | register
  | unregister
  | feed (w : ℕ)
  | ioClose (w : ℕ)
  | stop
  | run (mode : Mode) (now : ℕ)
  | next (now : ℕ) (again : Bool)

/-- The operations of `timer.c` that are called by the program; `uv_close` is one of the loop. -/
def isCall : Timer.Label α → Bool
  | .init _ | .start .. | .stop _ | .again _ | .setRepeat .. | .updateTime _ => true
  | _ => false

def Loop.call (s : Loop α) : Label α → Option (Loop α)
  | .timer l => if isCall l then s.onTimer l else none
  | .watcherStart k i cb => if (s.flags (.watcher k i)).isClosing then none else some (s.watcherStart k i cb)
  | .watcherStop k i => some (s.watcherStop k i)
  | .otherStart i => if (s.flags (.other i)).isClosing then none else some (s.flag (.other i) handleStart)
  | .otherStop i => some (s.flag (.other i) handleStop)
  | .ref h => some (s.flag h handleRef)
  | .unref h => some (s.flag h handleUnref)
  | .close h later => if later then (match h with | .other _ => s.uvClose h true | _ => none) else s.uvClose h false
  | .closePending i => if .other i ∈ s.closingHandles ++ s.detached then none else s.makeClosePending (.other i)
  | .register => some { s with activeReqs := (s.activeReqs + 1) % uintMax }
  | .unregister => if s.activeReqs = 0 then none else some { s with activeReqs := (s.activeReqs + (uintMax - 1)) % uintMax }
  | .feed w => some (s.ioFeed w)
  | .ioClose w => some (s.ioClose w)
  | .stop => some { s with stopFlag := true }
  | .run .. | .next .. => none

def step (s : Loop α) : Label α → Option (Loop α)
  | .run mode now => if s.pc = .out then s.run mode now else none
  | .next now again => s.next now again
  | l => if s.isUser then s.call l else none

def initial (t : Timer.Loop α) : Loop α :=
  { timer := t, watchers := fun _ => ⟨fun _ => handleInit, [], []⟩, others := fun _ => handleInit, activeReqs := 0,
    pendingQueue := [], pq := [], closingHandles := [], detached := [], stopFlag := false, mode := .default,
    ranPending := false, pc := .out, result := none }

def system (α : Type*) [DecidableEq α] : LTS (Loop α) (Label α) where
  init s := ∃ t, (Timer.system α).init t ∧ s = initial t
  step s l t := step s l = some t

end Libuv.L2.Run
