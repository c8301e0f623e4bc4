import Mathlib.Tactic
import Libuv.Core.LTS

/-!
# Async handles (`async.c`)

`libuv/src/unix/async.c`: any number of async handles share one fd, an eventfd or a pipe.
`uv_async_send` may run in any number of threads; each of its atomic operations is one
step, and so is each of `uv__async_io`: draining the fd (the read that empties it), moving
the handle list, taking a handle off it, one compare-exchange of `uv__async_spin`, and
the callback. Reads and writes interrupted by a signal are repeated and are not steps.

`fd` is what can be read from the shared fd; a write that would exceed its capacity is
`EAGAIN` and changes nothing. The poll is level-triggered: the loop enters
`uv__async_io` when it polls while the fd is readable, and blocks or goes on to its
next iteration when it is not.

A sender is one thread, or one activation of `uv_async_send` on the loop thread itself.
The loop thread calls `uv_async_init` and `uv_close` from the callbacks and from the rest
of its iteration; both do finitely many things before they come back, and the counter in
`Ctx` is how many are left. `uv_async_send` is not called on a handle after its
`uv_close`, but calls that have begun may still be going on; a handle is initialised again
only when none is. Not modelled: `uv__async_fork`, `uv__async_stop`, and the errors of
`uv__async_start`.
-/
namespace Libuv.L4.Async

/-! ## State -/

/-- The next operation of a call of `uv_async_send`. -/
inductive Sender (H : Type*)
  | idle
  | load (h : H)
  | swap01 (h : H)
  | write (h : H)
  | swap12 (h : H)
  | aborted

/-- Code of the loop thread that is not async.c's: the loop's iteration outside of
`uv__async_io`, or an `async_cb`; what is left to do of it. -/
inductive Ctx
  | outside (n : ℕ)
  | callback (n : ℕ)

inductive Pc (H : Type*)
  | run (c : Ctx)
  /-- in `uv__async_close` -/
  | closing (h : H) (c : Ctx)
  | drain
  | move
  | walk
  | spin (h : H)
  | call (h : H)

structure State (H I : Type*) where
  pending : H → ℕ
  /-- between `uv_async_init` and `uv_close` -/
  opened : H → Bool
  asyncHandles : List H
  /-- the local `queue` of `uv__async_io` -/
  queue : List H
  fd : ℕ
  senders : I → Sender H
  pc : Pc H

variable {H I : Type*} [DecidableEq H] [DecidableEq I]

namespace State
variable (s : State H I)

def setPending (h : H) (v : ℕ) : State H I := { s with pending := Function.update s.pending h v }

def setSender (i : I) (p : Sender H) : State H I := { s with senders := Function.update s.senders i p }

/-! ## Operations -/

/-- `cmpxchgi(&handle->pending, oldval, newval)` -/
def cmpxchgi (h : H) (oldval newval : ℕ) : ℕ × State H I :=
  (s.pending h, if s.pending h = oldval then s.setPending h newval else s)

/-- `if (ACCESS_ONCE(int, handle->pending) != 0) return 0;`
mirrors unix/async.c:73-76 -/
def load (i : I) (h : H) : State H I :=
  if s.pending h ≠ 0 then s.setSender i .idle else s.setSender i (.swap01 h)

/-- `if (cmpxchgi(&handle->pending, 0, 1) != 0) return 0;`
mirrors unix/async.c:83-84 -/
def swap01 (i : I) (h : H) : State H I :=
  let (rc, s) := s.cmpxchgi h 0 1
  if rc ≠ 0 then s.setSender i .idle else s.setSender i (.write h)

/-- `uv__async_send`, the write to an fd that holds up to `cap`.
mirrors unix/async.c:209-242 -/
def write (cap : ℕ) (i : I) (h : H) : State H I :=
  { s with fd := if s.fd < cap then s.fd + 1 else s.fd }.setSender i (.swap12 h)

/-- `if (cmpxchgi(&handle->pending, 1, 2) != 1) abort();`
mirrors unix/async.c:91-92 -/
def swap12 (i : I) (h : H) : State H I :=
  let (rc, s) := s.cmpxchgi h 1 2
  if rc ≠ 1 then s.setSender i .aborted else s.setSender i .idle

/-- mirrors unix/async.c:37-60 -/
def asyncInit (h : H) : State H I :=
  { s.setPending h 0 with
    opened := Function.update s.opened h true
    asyncHandles := s.asyncHandles ++ [h] }

/-- One round of `uv__async_spin` in `uv__async_close`.
mirrors unix/async.c:99-134 -/
def asyncClose (h : H) (c : Ctx) : State H I :=
  let (rc, s) := s.cmpxchgi h 2 0
  if rc = 1 then s
  else { s with asyncHandles := s.asyncHandles.erase h, queue := s.queue.erase h, pc := .run c }

/-- One round of `uv__async_spin` in `uv__async_io`; `cb` tells handles with an
`async_cb`.
mirrors unix/async.c:188-204 -/
def asyncSpin (cb : H → Bool) (h : H) : State H I :=
  let (rc, s) := s.cmpxchgi h 2 0
  if rc = 1 then s
  else if rc = 0 then { s with pc := .walk }
  else if cb h = false then { s with pc := .walk }
  else { s with pc := .call h }

end State

/-! ## The system -/

/-- A call is somewhere in `uv_async_send` for the handle. -/
def Sender.on (p : Sender H) (h : H) : Prop :=
  p = .load h ∨ p = .swap01 h ∨ p = .write h ∨ p = .swap12 h

inductive Ctx.Next : Ctx → Ctx → Prop
  | outside (n : ℕ) : Next (.outside (n + 1)) (.outside n)
  | callback (n : ℕ) : Next (.callback (n + 1)) (.callback n)

inductive Label (H I : Type*)
  | send (i : I) (h : H)
  | load (i : I)
  | swap01 (i : I) (h : H)
  | write (i : I)
  | swap12 (i : I)
  | init (h : H)
  | close (h : H)
  | closeBusy
  | closed (h : H)
  | work
  | iterate
  | poll
  | drain
  | move
  | visit (h : H)
  | done
  | spin
  | callback (h : H)
  | ret

inductive Step (cap : ℕ) (cb : H → Bool) : State H I → Label H I → State H I → Prop
  | send {s : State H I} {i : I} {h : H} (hi : s.senders i = .idle) (ho : s.opened h = true) :
      Step cap cb s (.send i h) (s.setSender i (.load h))
  | load {s : State H I} {i : I} {h : H} (hi : s.senders i = .load h) : Step cap cb s (.load i) (s.load i h)
  | swap01 {s : State H I} {i : I} {h : H} (hi : s.senders i = .swap01 h) :
      Step cap cb s (.swap01 i h) (s.swap01 i h)
  | write {s : State H I} {i : I} {h : H} (hi : s.senders i = .write h) :
      Step cap cb s (.write i) (s.write cap i h)
  | swap12 {s : State H I} {i : I} {h : H} (hi : s.senders i = .swap12 h) :
      Step cap cb s (.swap12 i) (s.swap12 i h)
  | init {s : State H I} {h : H} {c c' : Ctx} (hp : s.pc = .run c) (hc : c.Next c') (ho : s.opened h = false)
      (hs : ∀ i, ¬ (s.senders i).on h) : Step cap cb s (.init h) { s.asyncInit h with pc := .run c' }
  | close {s : State H I} {h : H} {c c' : Ctx} (hp : s.pc = .run c) (hc : c.Next c') (ho : s.opened h = true) :
      Step cap cb s (.close h)
        { s with opened := Function.update s.opened h false, pc := .closing h c' }
  | closeBusy {s : State H I} {h : H} {c : Ctx} (hp : s.pc = .closing h c) (hb : s.pending h = 1) :
      Step cap cb s .closeBusy (s.asyncClose h c)
  | closed {s : State H I} {h : H} {c : Ctx} (hp : s.pc = .closing h c) (hb : s.pending h ≠ 1) :
      Step cap cb s (.closed h) (s.asyncClose h c)
  | work {s : State H I} {c c' : Ctx} (hp : s.pc = .run c) (hc : c.Next c') :
      Step cap cb s .work { s with pc := .run c' }
  | iterate {s : State H I} (n : ℕ) (hp : s.pc = .run (.outside 0)) (hf : s.fd = 0) :
      Step cap cb s .iterate { s with pc := .run (.outside n) }
  | poll {s : State H I} (hp : s.pc = .run (.outside 0)) (hf : s.fd ≠ 0) :
      Step cap cb s .poll { s with pc := .drain }
  | drain {s : State H I} (hp : s.pc = .drain) : Step cap cb s .drain { s with fd := 0, pc := .move }
  | move {s : State H I} (hp : s.pc = .move) :
      Step cap cb s .move { s with queue := s.asyncHandles, asyncHandles := [], pc := .walk }
  | visit {s : State H I} {h : H} {rest : List H} (hp : s.pc = .walk) (hq : s.queue = h :: rest) :
      Step cap cb s (.visit h)
        { s with queue := rest, asyncHandles := s.asyncHandles ++ [h], pc := .spin h }
  | done {s : State H I} (n : ℕ) (hp : s.pc = .walk) (hq : s.queue = []) :
      Step cap cb s .done { s with pc := .run (.outside n) }
  | spin {s : State H I} {h : H} (hp : s.pc = .spin h) : Step cap cb s .spin (s.asyncSpin cb h)
  | callback {s : State H I} {h : H} (n : ℕ) (hp : s.pc = .call h) :
      Step cap cb s (.callback h) { s with pc := .run (.callback n) }
  | ret {s : State H I} (hp : s.pc = .run (.callback 0)) : Step cap cb s .ret { s with pc := .walk }

/-- A loop whose async fd is open, before its first async handle. -/
def State.fresh (s : State H I) : Prop :=
  (∀ h, s.pending h = 0) ∧ (∀ h, s.opened h = false) ∧ s.asyncHandles = [] ∧ s.queue = [] ∧ s.fd = 0 ∧
    (∀ i, s.senders i = .idle) ∧ ∃ n, s.pc = .run (.outside n)

/-- `cap` is what the fd holds, `cb` tells the handles with an `async_cb`. -/
def system (cap : ℕ) (cb : H → Bool) : LTS (State H I) (Label H I) where
  init := State.fresh
  step := Step cap cb

/-! ## Threads -/

inductive Thread (I : Type*)
  | loop
  | sender (i : I)

def Label.thread : Label H I → Thread I
  | .send i _ | .load i | .swap01 i _ | .write i | .swap12 i => .sender i
  | _ => .loop

/-- The loop thread always has something to do; a sender has until its call returns. -/
def active : Thread I → State H I → Prop
  | .loop, _ => True
  | .sender i, s => s.senders i ≠ .idle

end Libuv.L4.Async
