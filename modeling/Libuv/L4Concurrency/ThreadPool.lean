import Mathlib.Tactic
import Mathlib.Data.Fintype.Basic
import Libuv.Core.LTS

/-!
# The thread pool (`threadpool.c`)

`libuv/src/threadpool.c`: `n` workers, any number of loops and requests. The queue
node embedded in a request is linked into `wq`, `slow_io_pending_wq`, a loop's `wq`
and the local list of `uv__work_done` in turn, so a queue is a list of requests (and
of the two messages, for `wq`), and the only thing read off an unlinked node is
`QUEUE_EMPTY(&w->wq)`: the flag `linked`, cleared by `QUEUE_INIT` and set by
`QUEUE_INSERT_TAIL`. `QUEUE_REMOVE` alone leaves it as it is.

A step of the system is what one thread does under one mutex: `workerLoop` is one
iteration of the `for (;;)` loop of `worker` (a `continue` keeps the mutex), and
`uv__work_cancel` is two steps, since it drops both mutexes before it relinks the
request. `uv_cond_signal` wakes at least one waiter, if there is one; which ones is
part of the label. A waiter may also wake by itself.

Not modelled: `uv_async_send(&loop->wq_async)`, which makes the loop call
`uv__work_done` (here it may call it at any time), and fork.
-/
namespace Libuv.L4.ThreadPool

/-- mirrors uv-common.h:199-203 -/
inductive WorkKind
  | cpu | fastIo | slowIo
  deriving DecidableEq

/-- `w->work`: the function submitted, `NULL` once it has returned, or `uv__cancelled`. -/
inductive WorkFn
  | work | null | cancelled
  deriving DecidableEq

/-- `struct uv__work`; `linked` is `!QUEUE_EMPTY(&w->wq)`. -/
structure Work (L : Type*) where
  loop : L
  work : WorkFn
  linked : Bool

inductive Node (R : Type*)
  | exitMessage
  | runSlowWorkMessage
  | work (r : R)
  deriving DecidableEq

/-- Where a worker is between taking a request and relinking it: before, in and after
`w->work(w)`. -/
inductive Stage
  | picked | working | worked
  deriving DecidableEq

/-- `looping` holds `mutex`; `waiting` is inside `uv_cond_wait` and has not been
signalled, `signalled` has and waits for `mutex`; `relinked` is after the insertion into
`loop->wq`; `slow` is `is_slow_work`. -/
inductive WorkerState (R : Type*)
  | start
  | looping
  | waiting
  | signalled
  | busy (at_ : Stage) (r : R) (slow : Bool)
  | relinked (slow : Bool)
  | exited
  deriving DecidableEq

structure Pool (n : ℕ) (R L : Type*) where
  /-- the worker that holds `mutex` between two steps -/
  mutex : Option (Fin n)
  idleThreads : ℕ
  slowIoWorkRunning : ℕ
  workers : Fin n → WorkerState R
  wq : List (Node R)
  slowIoPendingWq : List R
  /-- the requests submitted so far -/
  reqs : R → Option (Work L)
  /-- `loop->wq` -/
  loopWq : L → List R
  /-- the local `wq` of `uv__work_done` -/
  dispatch : L → List R
  /-- the request a loop's thread has removed in `uv__work_cancel` and not relinked yet -/
  cancelling : L → Option R
  exitPosted : Bool
  /-- ghost: the requests whose `done` has been called -/
  doneRan : R → Bool

variable {n : ℕ} {R L : Type*} [DecidableEq R]

/-- mirrors threadpool.c:45-47 -/
def slowWorkThreadThreshold (nthreads : ℕ) : ℕ := (nthreads + 1) / 2

namespace Pool
variable (s : Pool n R L)

def setWorker (w : Fin n) (st : WorkerState R) : Pool n R L :=
  { s with workers := Function.update s.workers w st }

/-- `f` applied to the fields of `r`. -/
def modify (r : R) (f : Work L → Work L) : Pool n R L :=
  { s with reqs := Function.update s.reqs r ((s.reqs r).map f) }

/-- `uv_cond_signal(&cond)`, waking the waiters in `woken`. -/
def condSignal (woken : Fin n → Bool) : Pool n R L :=
  { s with workers := fun w =>
      if s.workers w = .waiting ∧ woken w = true then .signalled else s.workers w }

/-- A signal wakes at least one waiter, if there is one. -/
def Wakes (woken : Fin n → Bool) : Prop :=
  (∃ w, s.workers w = .waiting) → ∃ w, s.workers w = .waiting ∧ woken w = true

/-- `if (idle_threads > 0) uv_cond_signal(&cond)`. -/
def signalIfIdle (woken : Fin n → Bool) : Pool n R L :=
  if 0 < s.idleThreads then s.condSignal woken else s

/-- The end of `post`: link a node into `wq`.
mirrors threadpool.c:204-209 -/
def enqueue (q : Node R) (woken : Fin n → Bool) : Pool n R L :=
  { s with wq := s.wq ++ [q] }.signalIfIdle woken

section Fields
variable (q : Node R) (woken : Fin n → Bool)

@[simp] theorem enqueue_reqs : (s.enqueue q woken).reqs = s.reqs := by
  unfold enqueue signalIfIdle; split <;> rfl
@[simp] theorem enqueue_doneRan : (s.enqueue q woken).doneRan = s.doneRan := by
  unfold enqueue signalIfIdle; split <;> rfl
@[simp] theorem enqueue_wq : (s.enqueue q woken).wq = s.wq ++ [q] := by
  unfold enqueue signalIfIdle; split <;> rfl
@[simp] theorem enqueue_exitPosted : (s.enqueue q woken).exitPosted = s.exitPosted := by
  unfold enqueue signalIfIdle; split <;> rfl
@[simp] theorem enqueue_mutex : (s.enqueue q woken).mutex = s.mutex := by
  unfold enqueue signalIfIdle; split <;> rfl
@[simp] theorem enqueue_idleThreads : (s.enqueue q woken).idleThreads = s.idleThreads := by
  unfold enqueue signalIfIdle; split <;> rfl
@[simp] theorem enqueue_slowIoWorkRunning :
    (s.enqueue q woken).slowIoWorkRunning = s.slowIoWorkRunning := by
  unfold enqueue signalIfIdle; split <;> rfl

end Fields

/-- `post` of the node of a request. `run_slow_work_message` is self-linked exactly
when it is not in `wq`: it is reinitialised as it is taken out.
mirrors threadpool.c:170-210 -/
def post (r : R) (kind : WorkKind) (woken : Fin n → Bool) : Pool n R L :=
  let s := s.modify r fun k => { k with linked := true }
  match kind with
  | .slowIo =>
    let s := { s with slowIoPendingWq := s.slowIoPendingWq ++ [r] }
    if .runSlowWorkMessage ∈ s.wq then s else s.enqueue .runSlowWorkMessage woken
  | _ => s.enqueue (.work r) woken

/-- mirrors threadpool.c:320-333; a fresh request is unlinked. -/
def submit (r : R) (l : L) (kind : WorkKind) (woken : Fin n → Bool) : Pool n R L :=
  { s with reqs := Function.update s.reqs r (some { loop := l, work := .work, linked := false }) }.post
    r kind woken

/-- mirrors threadpool.c:226 -/
def postExit (woken : Fin n → Bool) : Pool n R L :=
  { s with exitPosted := true }.enqueue .exitMessage woken

/-- The test of the inner `while` loop of `worker`.
mirrors threadpool.c:73-76 -/
def mustWait : Bool :=
  s.wq.isEmpty ||
    (decide (s.wq = [Node.runSlowWorkMessage]) &&
      decide (slowWorkThreadThreshold n ≤ s.slowIoWorkRunning))

/-- Worker `w` takes `r`: its node is reinitialised and `mutex` released. -/
def take (w : Fin n) (r : R) (slow : Bool) : Pool n R L :=
  { (s.modify r fun k => { k with linked := false }).setWorker w (.busy .picked r slow) with
    mutex := none }

/-- One iteration of the `for (;;)` loop, from holding `mutex` to waiting, leaving, taking
a request or `continue`.
mirrors threadpool.c:66-138 -/
def workerLoop (w : Fin n) (woken : Fin n → Bool) : Pool n R L :=
  if s.mustWait then
    { s.setWorker w .waiting with idleThreads := s.idleThreads + 1, mutex := none }
  else
    match s.wq with
    | [] => s
    | .exitMessage :: _ => { (s.condSignal woken).setWorker w .exited with mutex := none }
    | .work r :: rest => { s with wq := rest }.take w r false
    | .runSlowWorkMessage :: rest =>
      if slowWorkThreadThreshold n ≤ s.slowIoWorkRunning then
        { s with wq := rest ++ [.runSlowWorkMessage] }
      else
        match s.slowIoPendingWq with
        | [] => { s with wq := rest }
        | r :: pending =>
          let s := { s with wq := rest, slowIoPendingWq := pending, slowIoWorkRunning := s.slowIoWorkRunning + 1 }
          if pending = [] then s.take w r true
          else
            (s.enqueue .runSlowWorkMessage woken).take w r true

/-- A worker gets `mutex` back: at its start, after a wakeup, after relinking a request.
mirrors threadpool.c:64,77-81,158-163 -/
def lock (w : Fin n) : Option (Pool n R L) :=
  let t := { s.setWorker w .looping with mutex := some w }
  match s.workers w with
  | .start => some t
  | .signalled => some { t with idleThreads := s.idleThreads - 1 }
  | .relinked slow =>
    some { t with slowIoWorkRunning := s.slowIoWorkRunning - (if slow then 1 else 0) }
  | _ => none

variable [DecidableEq L]

/-- The section under `loop->wq_mutex` after `w->work(w)`.
mirrors threadpool.c:146-156 -/
def relink (w : Fin n) (r : R) (slow : Bool) (l : L) : Pool n R L :=
  { (s.modify r fun k => { k with work := .null, linked := true }).setWorker w (.relinked slow) with
    loopWq := Function.update s.loopWq l (s.loopWq l ++ [r]) }

/-- `QUEUE_REMOVE(&w->wq)`: out of whichever queue it is linked in. -/
def unlink (r : R) : Pool n R L :=
  { s with
    wq := s.wq.erase (.work r)
    slowIoPendingWq := s.slowIoPendingWq.erase r
    loopWq := fun l => (s.loopWq l).erase r
    dispatch := fun l => (s.dispatch l).erase r }

/-- The first section of `uv__work_cancel`, for a request whose test succeeds.
mirrors threadpool.c:340-354 -/
def cancelRemove (r : R) (l : L) : Pool n R L :=
  { s.unlink r with cancelling := Function.update s.cancelling l (some r) }

/-- The second section.
mirrors threadpool.c:361-372 -/
def cancelRelink (r : R) (l : L) : Pool n R L :=
  { s.modify r fun k => { k with work := .cancelled, linked := true } with
    loopWq := Function.update s.loopWq l (s.loopWq l ++ [r])
    cancelling := Function.update s.cancelling l none }

/-- mirrors threadpool.c:384-391 -/
def workDone (l : L) : Pool n R L :=
  { s with
    loopWq := Function.update s.loopWq l []
    dispatch := Function.update s.dispatch l (s.loopWq l) }

/-- One round of the loop of `uv__work_done`, up to the call of `w->done`.
mirrors threadpool.c:394-402 -/
def runDone (l : L) (r : R) (rest : List R) : Pool n R L :=
  { s with
    dispatch := Function.update s.dispatch l rest
    doneRan := Function.update s.doneRan r true }

end Pool

/-- mirrors threadpool.c:350 -/
def Work.cancellable (k : Work L) : Bool := k.linked && decide (k.work ≠ .null)

/-- The status passed to `w->done` is `UV_ECANCELED`.
mirrors threadpool.c:399 -/
def Work.ecanceled (k : Work L) : Bool := decide (k.work = .cancelled)

/-- What a thread does in one step. `cancelBusy` is a call of `uv__work_cancel` that
returns `UV_EBUSY`, `cancelHit` the first section of one that returns 0 at `cancelOk`. -/
inductive Label (n : ℕ) (R L : Type*)
  | lock (w : Fin n)
  | iterate (w : Fin n) (woken : Fin n → Bool)
  | wake (w : Fin n)
  | workStart (w : Fin n) (r : R)
  | workReturn (w : Fin n) (r : R)
  | relink (w : Fin n) (r : R)
  | submit (r : R) (l : L) (kind : WorkKind) (woken : Fin n → Bool)
  | postExit (woken : Fin n → Bool)
  | cancelBusy (r : R)
  | cancelHit (r : R)
  | cancelOk (r : R)
  | workDone (l : L)
  | done (r : R) (ecanceled : Bool)

/-- `uv__work_cancel` may be called for `r`: by its loop's thread, which is not in the
middle of another call, before the `done` of `r` and at most once with success. -/
structure MayCancel (s : Pool n R L) (r : R) (k : Work L) : Prop where
  submitted : s.reqs r = some k
  thread : s.cancelling k.loop = none
  notDone : s.doneRan r = false
  notYet : k.work ≠ .cancelled

inductive Step [DecidableEq L] : Pool n R L → Label n R L → Pool n R L → Prop
  | lock {s t : Pool n R L} {w : Fin n} (free : s.mutex = none) (h : s.lock w = some t) :
      Step s (.lock w) t
  | iterate {s : Pool n R L} {w : Fin n} {woken : Fin n → Bool} (h : s.workers w = .looping)
      (hw : s.Wakes woken) : Step s (.iterate w woken) (s.workerLoop w woken)
  | wake {s : Pool n R L} {w : Fin n} (h : s.workers w = .waiting) :
      Step s (.wake w) (s.setWorker w .signalled)
  | workStart {s : Pool n R L} {w : Fin n} {r : R} {slow : Bool}
      (h : s.workers w = .busy .picked r slow) :
      Step s (.workStart w r) (s.setWorker w (.busy .working r slow))
  | workReturn {s : Pool n R L} {w : Fin n} {r : R} {slow : Bool}
      (h : s.workers w = .busy .working r slow) :
      Step s (.workReturn w r) (s.setWorker w (.busy .worked r slow))
  | relink {s : Pool n R L} {w : Fin n} {r : R} {slow : Bool} {k : Work L}
      (h : s.workers w = .busy .worked r slow) (hk : s.reqs r = some k) :
      Step s (.relink w r) (s.relink w r slow k.loop)
  | submit {s : Pool n R L} (r : R) (l : L) (kind : WorkKind) (woken : Fin n → Bool)
      (free : s.mutex = none) (h : s.reqs r = none) (hw : s.Wakes woken) :
      Step s (.submit r l kind woken) (s.submit r l kind woken)
  | postExit {s : Pool n R L} {woken : Fin n → Bool} (free : s.mutex = none)
      (h : s.exitPosted = false) (hw : s.Wakes woken) : Step s (.postExit woken) (s.postExit woken)
  | cancelBusy {s : Pool n R L} {r : R} {k : Work L} (free : s.mutex = none) (h : MayCancel s r k)
      (hc : k.cancellable = false) : Step s (.cancelBusy r) s
  | cancelHit {s : Pool n R L} {r : R} {k : Work L} (free : s.mutex = none) (h : MayCancel s r k)
      (hc : k.cancellable = true) : Step s (.cancelHit r) (s.cancelRemove r k.loop)
  | cancelOk {s : Pool n R L} {r : R} {l : L} (h : s.cancelling l = some r) :
      Step s (.cancelOk r) (s.cancelRelink r l)
  | workDone {s : Pool n R L} {l : L} (thread : s.cancelling l = none) (h : s.dispatch l = []) :
      Step s (.workDone l) (s.workDone l)
  | done {s : Pool n R L} {l : L} {r : R} {rest : List R} {k : Work L}
      (thread : s.cancelling l = none) (h : s.dispatch l = r :: rest) (hk : s.reqs r = some k) :
      Step s (.done r k.ecanceled) (s.runDone l r rest)

/-- After `init_threads`: `n` workers started, nothing submitted.
mirrors threadpool.c:244-307 -/
def Pool.initThreads (n : ℕ) (R L : Type*) : Pool n R L where
  mutex := none
  idleThreads := 0
  slowIoWorkRunning := 0
  workers _ := .start
  wq := []
  slowIoPendingWq := []
  reqs _ := none
  loopWq _ := []
  dispatch _ := []
  cancelling _ := none
  exitPosted := false
  doneRan _ := false

def system (n : ℕ) (R L : Type*) [DecidableEq R] [DecidableEq L] : LTS (Pool n R L) (Label n R L) where
  init s := s = Pool.initThreads n R L
  step := Step

end Libuv.L4.ThreadPool
