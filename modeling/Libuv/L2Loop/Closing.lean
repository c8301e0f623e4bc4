import Libuv.L2Loop.Handle

/-!
# Closing handles (`core.c`, `fs-poll.c`)

`uv_close`, the list `loop->closing_handles` threaded through the handles, and the pass
`uv__run_closing_handles` that detaches it. A handle is known by a number of its own, so
memory used again is another handle. The handles of the loop are in `handleQueue`; of
their types only what `uv_close` and `uv__finish_close` read is here: the signal counters,
and for `uv_fs_poll_t` its contexts (`poll_ctx` and the chain of `previous`), each known by
its internal timer, with the stat requests in flight.

While a user's callback runs inside the pass, `pc` says where (`destroy`: the request
callbacks `uv__stream_destroy` and `uv__udp_finish_close` run; `closeCb`: a close
callback), and what the callback does is a step of its own. A step returns `none` where
an assertion or `abort` stops the program, or where it is not allowed.
-/
namespace Libuv.L2.Closing
open Libuv.L2.Handle

/-- mirrors libuv/include/uv.h `UV_HANDLE_TYPE_MAP` -/
inductive Kind where
  | prepare | check | idle | async | timer | process | fsEvent | fsPoll | poll | signal | namedPipe | tcp | tty | udp
  deriving DecidableEq

/-- `close_cb`: none, the user's, `timer_close_cb`. -/
inductive CloseCb where
  | null | user | timerClose
  deriving DecidableEq

/-- `ctxs` is `poll_ctx` with its `previous` contexts, `parent` the `parent_handle` of the
context a timer belongs to, `internal` is `UV_HANDLE_INTERNAL`. -/
structure Handle where
  kind : Kind
  internal : Bool
  flags : Flags
  nextClosing : Option ℕ
  closeCb : CloseCb
  caught : ℕ
  dispatched : ℕ
  ctxs : List ℕ
  parent : ℕ
  deriving DecidableEq

/-- Where the loop is: outside, in the callback of an fs_poll context, at the head of the
loop in `uv__run_closing_handles`, in a callback of a request of `p`, in `p`'s close callback. -/
inductive Pc where
  | idle
  | pollCb (c : ℕ)
  | pass (p : Option ℕ)
  | destroy (p : ℕ) (q : Option ℕ)
  | closeCb (p : ℕ) (q : Option ℕ)
  deriving DecidableEq

/-- `stats` are the contexts whose stat request is in flight, `others` counts the other
requests. The last six are ghosts: every handle there ever was, the handles on
`closing_handles`, those the pass has still to finish, those it began with, those it has
finished, and the calls of the users' close callbacks. -/
structure Loop where
  handles : ℕ → Handle
  handleQueue : List ℕ
  closingHandles : Option ℕ
  activeHandles : ℕ
  activeReqs : ℕ
  pendingQueue : List ℕ
  pc : Pc
  stats : List ℕ
  others : ℕ
  used : List ℕ
  closing : List ℕ
  detached : List ℕ
  snapshot : List ℕ
  processed : List ℕ
  called : List ℕ

/-- mirrors unix/core.c:326-331 -/
def loopAlive (s : Loop) : Prop :=
  0 < s.activeHandles ∨ 0 < s.activeReqs ∨ s.pendingQueue ≠ [] ∨ s.closingHandles ≠ none

instance (s : Loop) : Decidable (loopAlive s) := by unfold loopAlive; infer_instance

section Source
variable (s : Loop) (h : ℕ)

def Loop.put (x : Handle) : Loop := { s with handles := Function.update s.handles h x }

/-- One of the macros of `uv-common.h` on the handle `h`. -/
def Loop.flag (m : Flags → ℕ → Flags × ℕ) : Loop :=
  let (flags, n) := m (s.handles h).flags s.activeHandles
  { s.put h { s.handles h with flags := flags } with activeHandles := n }

/-- mirrors uv-common.h `uv__req_register` -/
def reqRegister : Loop := { s with activeReqs := (s.activeReqs + 1) % uintMax }

/-- mirrors uv-common.h `uv__req_unregister` -/
def reqUnregister : Option Loop :=
  if s.activeReqs = 0 then none else some { s with activeReqs := (s.activeReqs + (uintMax - 1)) % uintMax }

/-- mirrors unix/core.c:214-219 -/
def makeClosePending : Option Loop :=
  let x := s.handles h
  if x.flags.closing && !x.flags.closed then
    some { s.put h { x with nextClosing := s.closingHandles } with closingHandles := some h, closing := h :: s.closing }
  else none

/-- `handle->flags |= UV_HANDLE_CLOSING; handle->close_cb = close_cb`
mirrors unix/core.c:117-118 -/
def markClosing (cb : CloseCb) : Loop :=
  s.put h { s.handles h with flags := { (s.handles h).flags with closing := true }, closeCb := cb }

/-- `uv_close` of a handle that is not a `uv_fs_poll_t`: the close routine of each type
stops the handle.
mirrors unix/core.c:114-184 -/
def uvCloseOther (cb : CloseCb) : Option Loop :=
  if (s.handles h).flags.isClosing then none
  else makeClosePending ((markClosing s h cb).flag h handleStop) h

/-- mirrors fs-poll.c:116-135 -/
def fsPollStop : Option Loop :=
  if (s.handles h).flags.active = false then some s
  else
    match (s.handles h).ctxs with
    | [] => none
    | c :: _ =>
      if (s.handles c).parent = h then
        (if (s.handles c).flags.active then uvCloseOther s c .timerClose else some s).map fun s => s.flag h handleStop
      else none

/-- mirrors fs-poll.c:164-169 -/
def fsPollClose : Option Loop :=
  (fsPollStop s h).bind fun s => if (s.handles h).ctxs = [] then makeClosePending s h else some s

/-- mirrors unix/core.c:114-184 -/
def uvClose (cb : CloseCb) : Option Loop :=
  if (s.handles h).kind = .fsPoll then
    if (s.handles h).flags.isClosing then none else fsPollClose (markClosing s h cb) h
  else uvCloseOther s h cb

/-- mirrors uv-common.h:314-322 -/
def init (x : Handle) : Loop :=
  { s.put h { x with flags := handleInit, nextClosing := none } with
    handleQueue := s.handleQueue ++ [h], used := h :: s.used }

/-- `uv_fs_poll_start`; `c` is the timer of the new context, and with `ok` false
`uv_fs_stat` has no memory: the context is freed, its timer stays in `handle_queue`.
mirrors fs-poll.c:66-113 -/
def fsPollStart (c : ℕ) (ok : Bool) : Loop :=
  if (s.handles h).flags.active then s
  else
    let s := init s c { s.handles c with kind := .timer, internal := true, ctxs := [], parent := h }
    let s := s.flag c handleUnref
    if ok then
      let s := { reqRegister s with stats := c :: s.stats }
      let s := s.put h { s.handles h with ctxs := c :: (s.handles h).ctxs }
      s.flag h handleStart
    else s

/-- `poll_cb` behind the user's callback.
mirrors fs-poll.c:215-230 -/
def pollOut (c : ℕ) : Option Loop :=
  let h := (s.handles c).parent
  if (s.handles h).flags.active = false ∨ (s.handles h).flags.isClosing = true then
    uvCloseOther { s with pc := .idle } c .timerClose
  else if (s.handles c).flags.isClosing then none
  else some { (s.flag c handleStop).flag c handleStart with pc := .idle }

/-- The stat request of `c` is done: `poll_cb` up to the user's callback, which is called
if `calls`.
mirrors fs-poll.c:185-213 -/
def pollCb (c : ℕ) (calls : Bool) : Option Loop :=
  (reqUnregister s).bind fun s =>
    let s := { s with stats := s.stats.erase c }
    let h := (s.handles c).parent
    if (s.handles h).flags.active && !(s.handles h).flags.isClosing && calls then some { s with pc := .pollCb c }
    else pollOut s c

/-- The timer of `c` is due.
mirrors fs-poll.c:172-182 -/
def timerCb (c : ℕ) : Option Loop :=
  let s := s.flag c handleStop
  if (s.handles (s.handles c).parent).ctxs.head? = some c then
    some { reqRegister s with stats := c :: s.stats }
  else none

/-- mirrors fs-poll.c:234-255 -/
def timerCloseCb (c : ℕ) : Option Loop :=
  let h := (s.handles c).parent
  match (s.handles h).ctxs with
  | [] => none
  | d :: rest =>
    if c = d then
      let s := s.put h { s.handles h with ctxs := rest }
      if rest = [] ∧ (s.handles h).flags.isClosing = true then makeClosePending s h else some s
    else if c ∈ rest then some (s.put h { s.handles h with ctxs := d :: rest.erase c })
    else none

/-- `uv__finish_close` behind the part that depends on the type, up to the close callback
of the user.
mirrors unix/core.c:290-297 -/
def finishRest (p : ℕ) (q : Option ℕ) : Option Loop :=
  let s := s.flag p handleUnref
  let s := { s with handleQueue := s.handleQueue.filter (· ≠ p), pc := .pass q }
  match (s.handles p).closeCb with
  | .null => some s
  | .user => some { s with pc := .closeCb p q, called := s.called ++ [p] }
  | .timerClose => timerCloseCb s p

/-- mirrors unix/core.c:249-288 -/
def finishClose (p : ℕ) (q : Option ℕ) : Option Loop :=
  let x := s.handles p
  if x.flags.closing && !x.flags.closed then
    let s := s.put p { x with flags := { x.flags with closed := true } }
    match x.kind with
    | .prepare | .check | .idle | .async | .timer | .process | .fsEvent | .fsPoll | .poll => finishRest s p q
    | .signal =>
      if x.dispatched < x.caught then
        makeClosePending { s.put p { x with flags := { x.flags with closed := false } } with pc := .pass q } p
      else finishRest s p q
    | .namedPipe | .tcp | .tty | .udp => some { s with pc := .destroy p q }
  else none

/-- One round of the loop; `q` is read before the handle is finished.
mirrors unix/core.c:301-313 -/
def runClosingHandles : Option ℕ → Option Loop
  | none => some { s with pc := .idle }
  | some p =>
    finishClose { s with detached := s.detached.tail, processed := s.processed ++ [p] } p (s.handles p).nextClosing

end Source

inductive Label where
  | init (h : ℕ) (kind : Kind)
  | start (h : ℕ)
  | stop (h : ℕ)
  | ref (h : ℕ)
  | unref (h : ℕ)
  | close (h : ℕ) (cb : Bool)
  | fsPollStart (h c : ℕ) (ok : Bool)
  | fsPollStop (h : ℕ)
  | signal (h : ℕ)
  | dispatch (h : ℕ)
  | pollCb (c : ℕ) (calls : Bool)
  | timerCb (c : ℕ)
  | register
  | unregister
  | pending (l : List ℕ)
  | run
  | next
  | ret
  deriving DecidableEq

def Pc.user : Pc → Bool
  | .pass _ => false
  | _ => true

/-- The handle is the user's and open, or closing and not finished. -/
def Loop.Own (s : Loop) (h : ℕ) : Prop := h ∈ s.handleQueue ∧ (s.handles h).internal = false ∧ s.pc.user = true

instance (s : Loop) (h : ℕ) : Decidable (s.Own h) := by unfold Loop.Own; infer_instance

/-- What the caller promises: the handle is initialised and no other loop's, a handle that
is closing is not started. A caught signal is one of an active handle, and it is dispatched
once. -/
def Loop.Allowed (s : Loop) : Label → Prop
  | .init h _ => s.pc.user = true ∧ h ∉ s.used
  | .start h => s.Own h ∧ (s.handles h).kind ≠ .fsPoll ∧ (s.handles h).flags.isClosing = false
  | .stop h => s.Own h ∧ (s.handles h).kind ≠ .fsPoll
  | .ref h | .unref h | .close h _ => s.Own h
  | .fsPollStart h c _ => s.Own h ∧ (s.handles h).kind = .fsPoll ∧ (s.handles h).flags.isClosing = false ∧ c ∉ s.used
  | .fsPollStop h => s.Own h ∧ (s.handles h).kind = .fsPoll
  | .signal h => h ∈ s.handleQueue ∧ (s.handles h).kind = .signal ∧ (s.handles h).flags.active = true
  | .dispatch h => s.pc = .idle ∧ h ∈ s.handleQueue ∧ (s.handles h).kind = .signal ∧ (s.handles h).dispatched ≠ (s.handles h).caught
  | .pollCb c _ => s.pc = .idle ∧ c ∈ s.stats
  | .timerCb c => s.pc = .idle ∧ c ∈ s.handleQueue ∧ (s.handles c).internal = true ∧ (s.handles c).flags.active = true
  | .register => s.pc.user = true
  | .unregister => 0 < s.others
  | .pending _ => s.pc.user = true
  | .run => s.pc = .idle
  | .next => s.pc.user = false
  | .ret => s.pc ≠ .idle ∧ s.pc.user = true

instance (s : Loop) (l : Label) : Decidable (s.Allowed l) := by
  cases l <;> unfold Loop.Allowed <;> infer_instance

def returned (s : Loop) : Option Loop :=
  match s.pc with
  | .idle | .pass _ => none
  | .pollCb c => pollOut s c
  | .destroy p q => finishRest s p q
  | .closeCb _ q => some { s with pc := .pass q }

def Loop.perform (s : Loop) : Label → Option Loop
  | .init h kind => some (init s h { s.handles h with
      kind := kind, internal := false, caught := 0, dispatched := 0, ctxs := [] })
  | .start h => some (s.flag h handleStart)
  | .stop h => some (s.flag h handleStop)
  | .ref h => some (s.flag h handleRef)
  | .unref h => some (s.flag h handleUnref)
  | .close h cb => uvClose s h (if cb then .user else .null)
  | .fsPollStart h c ok => some (fsPollStart s h c ok)
  | .fsPollStop h => fsPollStop s h
  | .signal h => some (s.put h { s.handles h with caught := ((s.handles h).caught + 1) % uintMax })
  | .dispatch h => some (s.put h { s.handles h with dispatched := ((s.handles h).dispatched + 1) % uintMax })
  | .pollCb c calls => pollCb s c calls
  | .timerCb c => timerCb s c
  | .register => some { reqRegister s with others := s.others + 1 }
  | .unregister => (reqUnregister s).map fun s => { s with others := s.others - 1 }
  | .pending l => some { s with pendingQueue := l }
  | .run => some { s with
      pc := .pass s.closingHandles, closingHandles := none, closing := [], detached := s.closing
      snapshot := s.closing, processed := [] }
  | .next =>
    match s.pc with
    | .pass p => runClosingHandles s p
    | _ => none
  | .ret => returned s

def step (s : Loop) (l : Label) : Option Loop := if s.Allowed l then s.perform l else none

/-- A new loop; memory that is not used yet has no contexts. -/
def Loop.Start (s : Loop) : Prop :=
  (∀ h, (s.handles h).ctxs = []) ∧ s.handleQueue = [] ∧ s.closingHandles = none ∧ s.activeHandles = 0 ∧ s.activeReqs = 0 ∧ s.pc = .idle ∧
    s.stats = [] ∧ s.others = 0 ∧ s.used = [] ∧ s.closing = [] ∧ s.detached = [] ∧ s.snapshot = [] ∧
    s.processed = [] ∧ s.called = []

def system : LTS Loop Label where
  init := Loop.Start
  step s l t := step s l = some t

end Libuv.L2.Closing
