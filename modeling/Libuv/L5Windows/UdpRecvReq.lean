import Libuv.Core.LTS
import Mathlib.Tactic

/-!
# The receive request of a UDP handle on Windows (`win/udp.c`)

A `uv_udp_t` has one request, `recv_req`, for a receive of no bytes that completes when there is a datagram, since
`uv_active_udp_streams_threshold` is 0. `uv__udp_queue_recv` submits it, and puts it into the ring of pending requests itself if
no packet comes to the completion port; `uv__process_udp_recv_req` gets a buffer from `alloc_cb`, receives into it, and submits
again. `UV_HANDLE_READ_PENDING` is to say that the request is on its way.

`outstanding` and `inRing` count how often the kernel or the port, and the ring, have the request; `doubled` says that it
was submitted while it was there, `stopped` that the user has called `uv_udp_recv_stop` or `uv_close` and not started again,
`late` that `recv_cb` was called then, `allocs` and `returned` list the buffers `alloc_cb` gave and `recv_cb` got; `others` is what
sends have added to `reqs_pending`. A failed assertion is `none`. User code runs in callbacks and between them.

* `recv_run`: the results, in these runs.
* `recv_run_fails`: runs where a submission fails, and where `alloc_cb` stops the handle.
-/
namespace Libuv.L5.UdpRecvReq

open Option

/-! ## State -/

inductive Status
  | success
  /-- `WSAEMSGSIZE` -/
  | msgSize
  /-- `WSAECONNRESET`, `WSAENETRESET` -/
  | reset
  | error
deriving DecidableEq

/-- The outcome of a submission: done without the port, a packet there or to come, or a failure. -/
inductive Submission
  | bypass
  | port
  | failed (status : Status)
deriving DecidableEq

/-- The outcome of `WSARecvFrom`. -/
inductive Received
  | message
  | msgSize
  | wouldBlock
  | reset
  | error
deriving DecidableEq

inductive Pc
  | idle
  | alloc
  | callback
deriving DecidableEq

structure State where
  reading : Bool
  readPending : Bool
  closing : Bool
  reqsPending : ℕ
  status : Status
  outstanding : ℕ
  inRing : ℕ
  pc : Pc
  others : ℕ
  doubled : Bool
  stopped : Bool
  late : Bool
  allocs : List ℕ
  returned : List ℕ
deriving DecidableEq

def uintMax : ℕ := 2 ^ 32

namespace State
variable (s : State)

/-! ## Operations -/

/-- mirrors win/udp.c:267-361 -/
def queueRecv (o : Submission) : Option State :=
  if s.reading = true ∧ s.readPending = false then
    let s := { s with
      status := .success
      doubled := s.doubled || decide (0 < s.outstanding + s.inRing)
      reqsPending := (s.reqsPending + 1) % uintMax }
    match o with
    | .bypass => some { s with readPending := true, inRing := s.inRing + 1 }
    | .port => some { s with readPending := true, outstanding := s.outstanding + 1 }
    | .failed status => some { s with status := status, inRing := s.inRing + 1 }
  else none

/-- mirrors win/udp.c:362-390 -/
def recvStart (bind : Bool) (o : Submission) : Option State :=
  if s.reading then some s
  else if !bind then some s
  else
    let s := { s with reading := true, stopped := s.closing }
    if s.readPending then some s else s.queueRecv o

/-- `uv__udp_recv_stop`
mirrors win/udp.c:393-401 -/
def stop : State := if s.reading then { s with reading := false } else s

/-- The user calls `uv_udp_recv_stop`. -/
def recvStop : State := { s.stop with stopped := true }

/-- The user calls `uv_close`; a second call fails an assertion.
mirrors win/udp.c:154-164 -/
def close : Option State := if s.closing then none else some { s.stop with stopped := true, closing := true }

/-- `recv_cb` is called. -/
def callback : State := { s with late := s.late || s.stopped, pc := .callback }

/-- `DECREASE_PENDING_REQ_COUNT`, and back to the loop. -/
def decrease : Option State := if 0 < s.reqsPending then some { s with reqsPending := s.reqsPending - 1, pc := .idle } else none

/-- Behind `done`.
mirrors win/udp.c:553-560 -/
def done (o : Submission) : Option State :=
  if s.reading && !s.readPending then (s.queueRecv o).bind decrease else s.decrease

/-- `uv__process_udp_recv_req`, up to the first callback; where there is none, the handle is not reading.
mirrors win/udp.c:453-505 -/
def process : Option State :=
  let s := { s with readPending := false, inRing := s.inRing - 1 }
  if s.status = .error then
    if s.reading then some s.stop.callback else s.decrease
  else if s.reading then some { s with pc := .alloc }
  else s.decrease

/-- `alloc_cb` returns the buffer `buf`, of length `len`.
mirrors win/udp.c:501-551 -/
def allocated (buf len : ℕ) (r : Received) : State :=
  let s := { s with allocs := s.allocs ++ [buf], returned := s.returned ++ [buf] }
  if len = 0 then s.callback
  else if r = .error then s.stop.callback
  else s.callback

end State

/-! ## The system -/

inductive Label
  | start (bind : Bool) (o : Submission)
  | stop
  | close
  /-- the request completes, and the loop takes its packet from the port -/
  | complete (status : Status)
  /-- the loop takes it from the ring -/
  | process
  | allocated (buf len : ℕ) (r : Received)
  /-- `recv_cb` returns -/
  | ret (o : Submission)
  /-- sends, and their packets -/
  | other (reqsPending others : ℕ)
deriving DecidableEq

def enabled (s : State) : Label → Prop
  | .complete _ => 0 < s.outstanding
  | .process => s.pc = .idle ∧ 0 < s.inRing
  | .allocated _ _ _ => s.pc = .alloc
  | .ret _ => s.pc = .callback
  | .other p o => (p + s.others) % uintMax = (s.reqsPending + o) % uintMax ∧ p < uintMax
  | .start _ _ | .stop | .close => True

def step (s : State) : Label → Option State
  | .start bind o => s.recvStart bind o
  | .stop => some s.recvStop
  | .close => s.close
  | .complete status => some { s with status := status, outstanding := s.outstanding - 1, inRing := s.inRing + 1 }
  | .process => s.process
  | .allocated buf len r => some (s.allocated buf len r)
  | .ret o => s.done o
  | .other p o => some { s with reqsPending := p, others := o }

def initial : State :=
  ⟨false, false, false, 0, .success, 0, 0, .idle, 0, false, true, false, [], []⟩

def system : LTS State Label where
  init s := s = initial
  step s l t := enabled s l ∧ step s l = some t

/-- No submission fails, `alloc_cb` does not leave the handle stopped, and it is not started when it is closed. -/
def Orderly (s : State) : Label → Prop
  | .start _ o => s.closing = false ∧ ∀ status, o ≠ .failed status
  | .ret o => ∀ status, o ≠ .failed status
  | .allocated _ _ _ => s.stopped = false
  | _ => True

/-! ## The invariant -/

def State.processing (s : State) : ℕ := if s.pc = .idle then 0 else 1

/-- The request was never submitted while it was there; the flag says whether it is; `reqs_pending` counts it, and also the one
that is being processed; `recv_cb` was not called behind a stop, and has got every buffer once. -/
structure Sound (s : State) : Prop where
  once : s.doubled = false ∧ s.outstanding + s.inRing ≤ 1
  flag : s.readPending = true ↔ 0 < s.outstanding + s.inRing
  counted : s.reqsPending = (s.others + (s.outstanding + s.inRing) + s.processing) % uintMax
  quiet : s.late = false
  buffers : s.returned = s.allocs

structure Inv (s : State) : Prop extends Sound s where
  reading : s.reading = true → s.stopped = false

variable {s t : State} {o : Submission}

theorem Inv.queued (h : Inv s) (h0 : s.outstanding + s.inRing = 0) {n m : ℕ} (hsum : n + m = 1) : Inv { s with
    status := .success
    doubled := s.doubled || decide (0 < s.outstanding + s.inRing)
    reqsPending := (s.reqsPending + 1) % uintMax
    readPending := true
    outstanding := n
    inRing := m } := by
  have hcount := h.counted
  refine ⟨⟨⟨?_, hsum.le⟩, ?_, ?_, h.quiet, h.buffers⟩, h.reading⟩
  · simp [h.once.1, h0]
  · simp [hsum]
  · simp only [State.processing, uintMax] at hcount ⊢
    omega

theorem queueRecv_inv (h : Inv s) (hr : s.reading = true) (hp : s.readPending = false) (ho : ∀ status, o ≠ .failed status) :
    ∃ t, s.queueRecv o = some t ∧ Inv t ∧ t.pc = s.pc := by
  have h0 : s.outstanding + s.inRing = 0 := by
    by_contra hne
    have hpos := h.flag.2 (Nat.pos_of_ne_zero hne)
    rw [hp] at hpos
    cases hpos
  unfold State.queueRecv
  rw [if_pos ⟨hr, hp⟩]
  cases o with
  | failed status => exact absurd rfl (ho status)
  | bypass => exact ⟨_, rfl, h.queued (n := s.outstanding) (m := s.inRing + 1) h0 (by omega), rfl⟩
  | port => exact ⟨_, rfl, h.queued (n := s.outstanding + 1) (m := s.inRing) h0 (by omega), rfl⟩

theorem decrease_inv (h : Inv s) (hpc : s.pc ≠ .idle) (ht : s.decrease = some t) : Inv t := by
  unfold State.decrease at ht
  split_ifs at ht with hpos
  obtain rfl := some.inj ht
  refine ⟨⟨h.once, h.flag, ?_, h.quiet, h.buffers⟩, h.reading⟩
  have hcount := h.counted
  rw [State.processing, if_neg hpc] at hcount
  simp only [State.processing, if_true, uintMax] at hcount ⊢
  omega

theorem done_inv (h : Inv s) (hpc : s.pc ≠ .idle) (ho : ∀ status, o ≠ .failed status) (ht : s.done o = some t) : Inv t := by
  unfold State.done at ht
  split at ht
  · rename_i hc
    simp only [Bool.and_eq_true, Bool.not_eq_true'] at hc
    obtain ⟨u, hu, hinv, hupc⟩ := queueRecv_inv h hc.1 hc.2 ho
    rw [hu] at ht
    exact decrease_inv hinv (hupc ▸ hpc) ht
  · exact decrease_inv h hpc ht

theorem stop_eq (s : State) : s.stop = { s with reading := false } := by
  unfold State.stop
  split
  · rfl
  · rename_i hr
    rw [← Bool.eq_false_iff.2 hr]

theorem Inv.stop (h : Inv s) (b c : Bool) : Inv { s with reading := false, stopped := b, closing := c } :=
  ⟨⟨h.once, h.flag, h.counted, h.quiet, h.buffers⟩, fun hr => by cases hr⟩

theorem Inv.processing (h : Inv s) (hpc : s.pc ≠ .idle) : Inv { s with pc := .callback } := by
  refine ⟨⟨h.once, h.flag, ?_, h.quiet, h.buffers⟩, h.reading⟩
  have hcount := h.counted
  rwa [State.processing, if_neg hpc] at hcount

theorem callback_inv (h : Inv { s with pc := .callback }) (hs : s.stopped = false) : Inv s.callback :=
  ⟨⟨h.once, h.flag, h.counted, by simp only [State.callback, hs, Bool.or_false]; exact h.quiet, h.buffers⟩, h.reading⟩

theorem start_inv (h : Inv s) {bind : Bool} (hc : s.closing = false) (ho : ∀ status, o ≠ .failed status)
    (ht : s.recvStart bind o = some t) : Inv t := by
  have hstart : Inv { s with reading := true, stopped := s.closing } :=
    ⟨⟨h.once, h.flag, h.counted, h.quiet, h.buffers⟩, fun _ => hc⟩
  unfold State.recvStart at ht
  dsimp only at ht
  split_ifs at ht with hr hb hp
  · exact some.inj ht ▸ h
  · exact some.inj ht ▸ h
  · exact some.inj ht ▸ hstart
  · obtain ⟨u, hu, hinv, -⟩ := queueRecv_inv hstart rfl (Bool.eq_false_iff.2 hp) ho
    rw [hu] at ht
    exact some.inj ht ▸ hinv

theorem process_inv (h : Inv s) (hpc : s.pc = .idle) (hring : 0 < s.inRing) (ht : s.process = some t) : Inv t := by
  have hone := h.once
  have hp : Inv { s with readPending := false, inRing := s.inRing - 1, pc := .callback } := by
    refine ⟨⟨⟨hone.1, ?_⟩, ?_, ?_, h.quiet, h.buffers⟩, h.reading⟩
    · simp only
      omega
    · simp only [Bool.false_eq_true, false_iff]
      omega
    · have hcount := h.counted
      simp only [State.processing, hpc, if_true, uintMax] at hcount ⊢
      simp only [reduceCtorEq, if_false]
      omega
  unfold State.process at ht
  dsimp only at ht
  split_ifs at ht with he hr hr
  · obtain rfl := some.inj ht
    rw [stop_eq]
    exact callback_inv (hp.stop s.stopped s.closing) (h.reading hr)
  · exact decrease_inv hp Pc.noConfusion ht
  · obtain rfl := some.inj ht
    exact ⟨⟨hp.once, hp.flag, hp.counted, hp.quiet, hp.buffers⟩, hp.reading⟩
  · exact decrease_inv hp Pc.noConfusion ht

theorem allocated_inv (h : Inv s) (hpc : s.pc = .alloc) (hs : s.stopped = false) (buf len : ℕ) (r : Received) :
    Inv (s.allocated buf len r) := by
  have hp := h.processing (by simp [hpc])
  have hbuf : Inv { s with pc := .callback, allocs := s.allocs ++ [buf], returned := s.returned ++ [buf] } :=
    ⟨⟨hp.once, hp.flag, hp.counted, hp.quiet, by simp [h.buffers]⟩, hp.reading⟩
  unfold State.allocated
  dsimp only
  split_ifs
  · exact callback_inv hbuf hs
  · rw [stop_eq]
    exact callback_inv (hbuf.stop s.stopped s.closing) hs
  · exact callback_inv hbuf hs

theorem inv_inductive : (system.restrict Orderly).Inductive Inv where
  init := by
    rintro s rfl
    exact ⟨⟨⟨rfl, Nat.zero_le 1⟩, by decide, rfl, rfl, rfl⟩, fun h => by cases h⟩
  step := by
    rintro s l t h ⟨ho, he, ht⟩
    cases l with
    | start bind o => exact start_inv h ho.1 ho.2 ht
    | stop =>
      obtain rfl := some.inj ht
      rw [State.recvStop, stop_eq]
      exact h.stop true s.closing
    | close =>
      simp only [step, State.close] at ht
      split_ifs at ht
      obtain rfl := some.inj ht
      rw [stop_eq]
      exact h.stop true true
    | complete status =>
      obtain rfl := some.inj ht
      have hpos : 0 < s.outstanding := he
      have hsum : s.outstanding - 1 + (s.inRing + 1) = s.outstanding + s.inRing := by omega
      exact ⟨⟨⟨h.once.1, hsum ▸ h.once.2⟩, by simp [hsum, h.flag], by simp only [hsum]; exact h.counted, h.quiet,
        h.buffers⟩, h.reading⟩
    | process => exact process_inv h he.1 he.2 ht
    | allocated buf len r => exact some.inj ht ▸ allocated_inv h he ho buf len r
    | ret o =>
      have hpc : s.pc = .callback := he
      exact done_inv h (by simp [hpc]) ho ht
    | other p o =>
      obtain rfl := some.inj ht
      refine ⟨⟨h.once, h.flag, ?_, h.quiet, h.buffers⟩, h.reading⟩
      have hcount := h.counted
      obtain ⟨h1, h2⟩ := he
      simp only [State.processing, uintMax] at hcount h1 h2 ⊢
      omega

/-- **The receive request** is never queued twice, and the rest of `Sound`, in every state of every run in which no submission
fails at once, `alloc_cb` does not leave the handle stopped or closed, and the handle is not started when it is closed. -/
theorem recv_run (h : (system.restrict Orderly).Reachable s) : Sound s := (inv_inductive.reachable h).toSound

theorem run_step (h : system.Reachable s) (l : Label) (he : enabled s l) (ht : step s l = some t) : system.Reachable t :=
  h.step ⟨he, ht⟩

theorem orderly_step (h : (system.restrict Orderly).Reachable s) (l : Label) (ho : Orderly s l) (he : enabled s l)
    (ht : step s l = some t) : (system.restrict Orderly).Reachable t :=
  h.step ⟨ho, he, ht⟩

/-- The request is submitted, completes, and gets a buffer. -/
theorem recv_run_message : ∃ s, (system.restrict Orderly).Reachable s ∧ s.pc = .callback ∧ s.returned = [7] ∧ Sound s := by
  have h0 : (system.restrict Orderly).Reachable initial := .init rfl
  have h1 := orderly_step h0 (.start true .port) ⟨rfl, fun _ => Submission.noConfusion⟩ trivial rfl
  have h2 := orderly_step h1 (.complete .success) trivial Nat.one_pos rfl
  have h3 := orderly_step h2 .process trivial ⟨rfl, Nat.one_pos⟩ rfl
  have h4 := orderly_step h3 (.allocated 7 100 .message) rfl rfl rfl
  exact ⟨_, h4, rfl, rfl, recv_run h4⟩

/-- **A submission that fails** leaves the flag off: the request is in the ring, and after a stop and a start it is submitted
again. **A stop in `alloc_cb`** does not keep `recv_cb` from being called. -/
theorem recv_run_fails :
    (∃ s, system.Reachable s ∧ s.readPending = false ∧ s.inRing = 1) ∧
    (∃ s, system.Reachable s ∧ s.doubled = true ∧ s.inRing = 1 ∧ s.outstanding = 1) ∧
    ∃ s, system.Reachable s ∧ s.late = true := by
  have h0 : system.Reachable initial := .init rfl
  have h1 := run_step h0 (.start true (.failed .error)) trivial rfl
  have h2 := run_step h1 .stop trivial rfl
  have h3 := run_step h2 (.start true .port) trivial rfl
  have k1 := run_step h0 (.start true .port) trivial rfl
  have k2 := run_step k1 (.complete .success) Nat.one_pos rfl
  have k3 := run_step k2 .process ⟨rfl, Nat.one_pos⟩ rfl
  have k4 := run_step k3 .stop trivial rfl
  have k5 := run_step k4 (.allocated 7 100 .message) rfl rfl
  exact ⟨⟨_, h1, rfl, rfl⟩, ⟨_, h3, rfl, rfl, rfl⟩, ⟨_, k5, rfl⟩⟩

end Libuv.L5.UdpRecvReq
