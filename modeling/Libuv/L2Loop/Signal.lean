import Libuv.Core.LTS
import Mathlib.Tactic

/-!
# Signal watchers (`signal.c`)

The signal handler finds the handles started on its number in one tree for the whole process
and writes a message for each of them into the pipe of the handle's loop; the loop reads the
messages and calls the handles. A handle is known by its address, a loop too. The red-black tree
is the list of its nodes in order; a handle is in it, and active, while its `signum` is not 0.
`disp` is what the kernel has for a signal, with `SA_RESETHAND` or without.

The handler runs to its end wherever signals are not blocked: between any two steps. So a
`uv__signal_start` that stops the handle first is two steps, up to the lock and from there on.
The user's code runs while a loop is outside of libuv, in a `signal_cb` or in a `close_cb`.
`valid` are the numbers that `sigaction` accepts.

`Ghost` is for the statements only: how often a handle has been started, whether it was
one-shot the last time, whether a signal was delivered to it since, and whether the start
must still stand. A message carries the number of starts at which it was written.
-/
namespace Libuv.L2.Signal

def u32 (n : ℕ) : ℕ := n % 2 ^ 32

/-- `uv_signal_t`; `live` from `uv_signal_init` until the `close_cb` is called. -/
structure Handle where
  live : Bool
  loop : ℕ
  signum : ℤ
  signalCb : ℕ
  oneShot : Bool
  closing : Bool
  caughtSignals : ℕ
  dispatchedSignals : ℕ
  deriving DecidableEq

inductive Disposition where
  | dfl
  | handler (resetHand : Bool)
  deriving DecidableEq

/-- `uv__signal_msg_t` -/
structure Msg where
  handle : ℕ
  signum : ℤ
  start : ℕ
  deriving DecidableEq

/-- Where a loop is: outside; before another `read` in `uv__signal_event`; in its `for`, before the next
message; behind the comparison of a message, whose handle may have been called; in
`uv__run_closing_handles`; in `uv__signal_start`, before the lock. `full` is `end == sizeof buf`. -/
inductive Pc where
  | idle
  | reading
  | messages (msgs : List Msg) (full : Bool)
  | handled (msg : Msg) (msgs : List Msg) (full called : Bool)
  | closing (p : List ℕ)
  | starting (h signalCb : ℕ) (signum : ℤ) (oneshot : Bool) (back : Pc)
  deriving DecidableEq

structure Ghost where
  starts : ℕ
  oneshot : Bool
  delivered : Bool
  promised : Bool
  deriving DecidableEq

structure State where
  handles : ℕ → Handle
  tree : List ℕ
  disp : ℤ → Disposition
  pipe : ℕ → List Msg
  pc : ℕ → Pc
  closingHandles : ℕ → List ℕ
  ghost : ℕ → Ghost

/-! ## The tree -/

/-- What `uv__signal_compare` reads of a handle. -/
structure Key where
  signum : ℤ
  oneShot : Bool
  loop : ℕ
  addr : ℕ

/-- mirrors unix/signal.c:527-554 -/
def compare (w1 w2 : Key) : ℤ :=
  if w1.signum < w2.signum then -1
  else if w1.signum > w2.signum then 1
  else
    let f1 := w1.oneShot.toNat
    let f2 := w2.oneShot.toNat
    if f1 < f2 then -1
    else if f1 > f2 then 1
    else if w1.loop < w2.loop then -1
    else if w1.loop > w2.loop then 1
    else if w1.addr < w2.addr then -1
    else if w1.addr > w2.addr then 1
    else 0

section Source
variable (s : State)

def key (h : ℕ) : Key := ⟨(s.handles h).signum, (s.handles h).oneShot, (s.handles h).loop, h⟩

def put (h : ℕ) (r : Handle) : State := { s with handles := Function.update s.handles h r }

def mark (h : ℕ) (g : Ghost) : State := { s with ghost := Function.update s.ghost h g }

/-- `RB_INSERT` -/
def insert (h : ℕ) : List ℕ :=
  s.tree.takeWhile (fun x => compare (key s x) (key s h) < 0) ++ h :: s.tree.dropWhile fun x => compare (key s x) (key s h) < 0

/-- From the node that `RB_NFIND` finds for `{ signum, 0, NULL }` on, in the order of `RB_NEXT`, the nodes
with this number: what the loop of the handler visits. -/
def matching (signum : ℤ) : List ℕ :=
  (s.tree.dropWhile fun x => 0 < compare ⟨signum, false, 0, 0⟩ (key s x)).takeWhile fun x => (s.handles x).signum = signum

/-- mirrors unix/signal.c:163-178 -/
def firstHandle (signum : ℤ) : Option ℕ := (matching s signum).head?

/-! ## The handler -/

/-- The body of the handler's loop; `ok` is whether the pipe had room.
mirrors unix/signal.c:198-214 -/
def deliver (signum : ℤ) (ok : ℕ → Bool) (s : State) (h : ℕ) : State :=
  if ok h then
    let r := s.handles h
    let s := { s with pipe := Function.update s.pipe r.loop (s.pipe r.loop ++ [⟨h, signum, (s.ghost h).starts⟩]) }
    mark (put s h { r with caughtSignals := u32 (r.caughtSignals + 1) }) h { s.ghost h with delivered := true }
  else s

/-- mirrors unix/signal.c:181-219 -/
def signalHandler (signum : ℤ) (ok : ℕ → Bool) : State := (matching s signum).foldl (deliver signum ok) s

/-- A signal arrives. The kernel resets the disposition before it calls the handler; what the default
action does is not of this model. -/
def arrive (signum : ℤ) (ok : ℕ → Bool) : State :=
  match s.disp signum with
  | .dfl => s
  | .handler resetHand =>
    signalHandler (if resetHand then { s with disp := Function.update s.disp signum .dfl } else s) signum ok

/-! ## Starting and stopping -/

/-- mirrors unix/signal.c:222-243 -/
def registerHandler (signum : ℤ) (oneshot : Bool) : State :=
  { s with disp := Function.update s.disp signum (.handler oneshot) }

/-- mirrors unix/signal.c:246-259 -/
def unregisterHandler (signum : ℤ) : State := { s with disp := Function.update s.disp signum .dfl }

/-- mirrors unix/signal.c:564-608 -/
def signalStop (h : ℕ) : State :=
  let r := s.handles h
  if r.signum = 0 then s
  else
    let s := { s with tree := s.tree.erase h }
    let s := match firstHandle s r.signum with
      | none => unregisterHandler s r.signum
      | some first => if (s.handles first).oneShot ∧ ¬r.oneShot then registerHandler s r.signum true else s
    put s h { r with signum := 0 }

/-- Whether `uv__signal_start` has to install the handler.
mirrors unix/signal.c:406-420 -/
def registers (signum : ℤ) (oneshot : Bool) : Bool :=
  match firstHandle s signum with
  | none => true
  | some first => !oneshot && (s.handles first).oneShot

/-- `uv__signal_start` from the lock on, and whether it succeeds.
mirrors unix/signal.c:398-448 -/
def signalStart (valid : ℤ → Bool) (h signalCb : ℕ) (signum : ℤ) (oneshot : Bool) : State × Bool :=
  if registers s signum oneshot ∧ ¬valid signum then (s, false)
  else
    let s := if registers s signum oneshot then registerHandler s signum oneshot else s
    let r := s.handles h
    let s := put s h { r with signum := signum, oneShot := r.oneShot || oneshot }
    let s := { s with tree := insert s h }
    (put s h { s.handles h with signalCb := signalCb }, true)

/-- mirrors unix/signal.c:338-353 -/
def signalInit (loop h : ℕ) : State := put s h ⟨true, loop, 0, 0, false, false, 0, 0⟩

/-- mirrors unix/core.c:98-166,205-210 and libuv/src/unix/signal.c:356-358 -/
def close (h : ℕ) : State :=
  let s := signalStop (put s h { s.handles h with closing := true }) h
  let loop := (s.handles h).loop
  { s with closingHandles := Function.update s.closingHandles loop (h :: s.closingHandles loop) }

/-! ## The loop -/

/-- A message has been dispatched.
mirrors unix/signal.c:508-513 -/
def complete (h : ℕ) : State :=
  let r := s.handles h
  let s := put s h { r with dispatchedSignals := u32 (r.dispatchedSignals + 1) }
  if r.oneShot then signalStop s h else s

/-- `UV_SIGNAL` in `uv__finish_close`: back into the queue, or to the end.
mirrors unix/core.c:240-297 -/
def finishClose (h : ℕ) : State :=
  let r := s.handles h
  if r.dispatchedSignals < r.caughtSignals then
    { s with closingHandles := Function.update s.closingHandles r.loop (h :: s.closingHandles r.loop) }
  else put s h { r with live := false }

end Source

/-! ## The system -/

inductive Label where
  | init (loop h : ℕ)
  | start (h signalCb : ℕ) (signum : ℤ) (oneshot : Bool)
  | lock (loop : ℕ)
  | stop (h : ℕ)
  | close (h : ℕ)
  | signal (signum : ℤ) (ok : ℕ → Bool)
  | read (loop n : ℕ)
  | drained (loop : ℕ)
  | pick (loop : ℕ)
  | complete (loop : ℕ)
  | next (loop : ℕ)
  | runClosing (loop : ℕ)
  | finishClose (loop : ℕ)
  | closed (loop : ℕ)

def State.setPc (s : State) (loop : ℕ) (pc : Pc) : State := { s with pc := Function.update s.pc loop pc }

def Pc.Calls : Pc → Prop
  | .idle | .handled _ _ _ true | .closing _ => True
  | _ => False

instance (pc : Pc) : Decidable pc.Calls := by
  unfold Pc.Calls; split <;> infer_instance

/-- The user may call libuv with `h`: it is initialised and not closing, and the call is made in its loop. -/
def Own (s : State) (h : ℕ) : Prop :=
  (s.handles h).live = true ∧ (s.handles h).closing = false ∧ (s.pc (s.handles h).loop).Calls

instance (s : State) (h : ℕ) : Decidable (Own s h) := by unfold Own; infer_instance

def Ghost.start (g : Ghost) (oneshot : Bool) : Ghost := ⟨g.starts + 1, oneshot, false, true⟩

def startLocked (valid : ℤ → Bool) (s : State) (h signalCb : ℕ) (signum : ℤ) (oneshot : Bool) : State :=
  let r := signalStart s valid h signalCb signum oneshot
  if r.2 then mark r.1 h ((s.ghost h).start oneshot) else r.1

/-- One step. Before the lock `uv__signal_start` is lines 381-396: no number, the number the handle has, or the stop of
the handle. The two asserted facts `!uv__is_closing` of `uv_signal_start` and `uv_signal_stop` are promised by the
caller; a handle is initialised when it is not in use. -/
def step (valid : ℤ → Bool) (s : State) : Label → Option State
  | .init loop h => if (s.handles h).live = false ∧ (s.pc loop).Calls then some (signalInit s loop h) else none
  | .start h signalCb signum oneshot =>
    let r := s.handles h
    if Own s h then
      if signum = 0 then some s
      else if signum = r.signum then some (mark (put s h { r with signalCb := signalCb }) h ((s.ghost h).start oneshot))
      else if r.signum ≠ 0 then
        some ((signalStop s h).setPc r.loop (.starting h signalCb signum oneshot (s.pc r.loop)))
      else some (startLocked valid s h signalCb signum oneshot)
    else none
  | .lock loop =>
    match s.pc loop with
    | .starting h signalCb signum oneshot back => some ((startLocked valid s h signalCb signum oneshot).setPc loop back)
    | _ => none
  | .stop h =>
    if Own s h then
      let t := signalStop s h
      some (mark t h { t.ghost h with promised := false })
    else none
  | .close h =>
    if Own s h then
      let t := close s h
      some (mark t h { t.ghost h with promised := false })
    else none
  | .signal signum ok => some (arrive s signum ok)
  | .read loop n =>
    if (s.pc loop = .idle ∨ s.pc loop = .reading) ∧ 0 < n ∧ n ≤ 32 ∧ n ≤ (s.pipe loop).length then
      some (State.setPc { s with pipe := Function.update s.pipe loop ((s.pipe loop).drop n) } loop
        (.messages ((s.pipe loop).take n) (n = 32)))
    else none
  | .drained loop => if s.pc loop = .reading ∧ s.pipe loop = [] then some (s.setPc loop .idle) else none
  | .pick loop =>
    match s.pc loop with
    | .messages (msg :: msgs) full =>
      let called : Bool := msg.signum = (s.handles msg.handle).signum
      let g := s.ghost msg.handle
      let s := if called ∧ msg.start = g.starts then mark s msg.handle { g with promised := false } else s
      some (s.setPc loop (.handled msg msgs full called))
    | _ => none
  | .complete loop =>
    match s.pc loop with
    | .handled msg msgs full _ => some ((complete s msg.handle).setPc loop (.messages msgs full))
    | _ => none
  | .next loop =>
    match s.pc loop with
    | .messages [] full => some (s.setPc loop (if full then .reading else .idle))
    | _ => none
  | .runClosing loop =>
    if s.pc loop = .idle then
      some (State.setPc { s with closingHandles := Function.update s.closingHandles loop [] } loop (.closing (s.closingHandles loop)))
    else none
  | .finishClose loop =>
    match s.pc loop with
    | .closing (h :: p) => some ((finishClose s h).setPc loop (.closing p))
    | _ => none
  | .closed loop =>
    match s.pc loop with
    | .closing [] => some (s.setPc loop .idle)
    | _ => none

def State.fresh : State where
  handles _ := ⟨false, 0, 0, 0, false, false, 0, 0⟩
  tree := []
  disp _ := .dfl
  pipe _ := []
  pc _ := .idle
  closingHandles _ := []
  ghost _ := ⟨0, false, false, false⟩

def system (valid : ℤ → Bool) : LTS State Label where
  init s := s = State.fresh
  step s l t := step valid s l = some t

end Libuv.L2.Signal
