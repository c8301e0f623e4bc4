import Libuv.L3Stream.Stream

/-!
# Writing with a handle to send (`uv_write2`, `uv_try_write2`)

What `libuv/src/unix/stream.c` checks before it writes, with its errors, and the start of `uv__try_write`, which sends the
descriptor. `Stream` has the writes themselves; of the handle to send it knows whether there is a descriptor. A handle to send
is a stream, a UDP handle or another one, with the `fd` of its watcher.

`uv_try_write2` checks the stream with `NULL` in place of the handle.

* `tryWrite2_validates_iff`: `uv_try_write2` checks what `uv_write2` checks, sends no descriptor over a stream that is not an
  IPC pipe and fails no assertion, if and only if the check does not depend on the handle.
* `tryWrite2_sends`: a descriptor that is sent over a TCP connection.
-/
namespace Libuv.L3.Stream

def UV_EBADF : ℤ := -9
def UV_ENOMEM : ℤ := -12
def UV_EINVAL : ℤ := -22
def UV_EPIPE : ℤ := -32

inductive SendType
  | stream (type : HandleType)
  | udp
  | other
  deriving DecidableEq

structure SendHandle where
  type : SendType
  fd : ℤ
  closing : Bool
  deriving DecidableEq

/-- mirrors unix/stream.c:819-832 -/
def SendHandle.handleFd (h : SendHandle) : ℤ :=
  match h.type with
  | .stream .pipe | .stream .tcp | .udp => h.fd
  | .stream .tty | .other => -1

/-- What `Stream` knows of it. -/
def SendHandle.hasFd (h : SendHandle) : Bool := decide (0 ≤ h.handleFd)

/-- What a call comes to: a failed assertion, an error of the check, or `uv__try_write` with its result or system call. -/
inductive Tried
  | crash
  | invalid (err : ℤ)
  | returned (err : ℤ)
  | sendmsg (fd : ℤ)
  | writev
  deriving DecidableEq

namespace State
variable (s : State)

/-- mirrors unix/stream.c:1459-1497 -/
def checkError (send : Option SendHandle) : ℤ :=
  if s.fd < 0 then UV_EBADF
  else if s.flags.writable = false then UV_EPIPE
  else
    match send with
    | none => 0
    | some h => if s.type ≠ .pipe ∨ s.ipc = false then UV_EINVAL else if h.handleFd < 0 then UV_EBADF else 0

/-- What `uv_write2` returns.
mirrors unix/stream.c:1499-1577 -/
def write2Error (bufs : List Buf) (send : Option SendHandle) (alloc : Bool) : ℤ :=
  if s.checkError send < 0 then s.checkError send else if 4 < bufs.length ∧ alloc = false then UV_ENOMEM else 0

/-- `uv__try_write` up to its system call.
mirrors unix/stream.c:834-905 -/
def tryWriteCall : Option SendHandle → Tried
  | none => .writev
  | some h => if h.closing then .returned UV_EBADF else if h.handleFd < 0 then .crash else .sendmsg h.handleFd

/-- mirrors unix/stream.c:1603-1618 -/
def tryWrite2Call (bufs : List Buf) (send : Option SendHandle) : Tried :=
  if s.connectReq.isSome ∨ s.writeQueueSize ≠ 0 then .returned UV_EAGAIN
  else if bufs = [] then .crash
  else if s.checkError none < 0 then .invalid (s.checkError none)
  else tryWriteCall send

/-- The call fails as `uv_write2` does, and only otherwise comes to `uv__try_write`; a descriptor goes over an IPC pipe, and
no assertion fails. -/
structure Validates (bufs : List Buf) (send : Option SendHandle) : Prop where
  error : s.checkError send < 0 → s.tryWrite2Call bufs send = .invalid (s.checkError send)
  tried : s.checkError send = 0 → s.tryWrite2Call bufs send = tryWriteCall send
  ipc : ∀ fd, s.tryWrite2Call bufs send = .sendmsg fd → s.type = .pipe ∧ s.ipc = true ∧ 0 ≤ fd
  safe : s.tryWrite2Call bufs send ≠ .crash

variable {s} {bufs : List Buf} {send : Option SendHandle}

theorem checkError_nonpos (s : State) (send : Option SendHandle) : s.checkError send < 0 ∨ s.checkError send = 0 := by
  unfold checkError
  split
  · exact .inl (by decide)
  · split
    · exact .inl (by decide)
    · split
      · exact .inr rfl
      · split_ifs
        · exact .inl (by decide)
        · exact .inl (by decide)
        · exact .inr rfl

theorem checkBeforeWrite_eq (s : State) (send : Option SendHandle) :
    s.checkBeforeWrite (send.map SendHandle.hasFd) = decide (s.checkError send = 0) := by
  unfold checkBeforeWrite checkError
  by_cases hfd : s.fd < 0
  · rw [if_pos hfd, decide_eq_false (by omega)]
    rfl
  · rw [if_neg hfd, decide_eq_true (by omega)]
    cases hw : s.flags.writable with
    | false => rfl
    | true =>
      cases send with
      | none => rfl
      | some h =>
        by_cases hp : s.type = .pipe
        · cases hi : s.ipc with
          | false => simp [hp, UV_EINVAL]
          | true =>
            by_cases hh : h.handleFd < 0
            · simp [hp, hh, SendHandle.hasFd, UV_EBADF]
            · simp [hp, hh, SendHandle.hasFd]
              omega
        · simp [hp, UV_EINVAL]

theorem write2_invalid (hb : bufs ≠ []) (he : s.checkError send < 0) (iovmax : ℕ) (cb alloc : Bool) (outs : List Outcome) :
    s.write2 iovmax bufs (send.map SendHandle.hasFd) cb alloc outs = .ok s := by
  unfold write2
  rw [if_neg hb, if_pos]
  rw [checkBeforeWrite_eq]
  exact decide_eq_false (by omega)

theorem checkError_stream (h : s.checkError none < 0) (send : Option SendHandle) : s.checkError send = s.checkError none := by
  unfold checkError at h ⊢
  split_ifs at h ⊢
  all_goals first | rfl | exact absurd h (by decide)

theorem checkError_some {h : SendHandle} (hc : s.checkError (some h) = 0) : s.type = .pipe ∧ s.ipc = true ∧ 0 ≤ h.handleFd := by
  unfold checkError at hc
  dsimp only at hc
  split_ifs at hc with h1 h2 h3 h4
  · exact absurd hc (by decide)
  · exact absurd hc (by decide)
  · exact absurd hc (by decide)
  · exact absurd hc (by decide)
  · simp only [ne_eq, not_or, not_not, Bool.not_eq_false] at h3
    exact ⟨h3.1, h3.2, by omega⟩

/-- With no connect under way and nothing queued `uv_try_write2` checks as `uv_write2` does exactly when there is no handle to
send, or the stream alone fails the check, or it passes with the handle. -/
theorem tryWrite2_validates_iff (hconnect : s.connectReq = none) (hsize : s.writeQueueSize = 0) (hb : bufs ≠ []) :
    s.Validates bufs send ↔ send = none ∨ s.checkError none < 0 ∨ s.checkError send = 0 := by
  have hcall : s.tryWrite2Call bufs send =
      if s.checkError none < 0 then .invalid (s.checkError none) else tryWriteCall send := by
    unfold tryWrite2Call
    rw [if_neg (by simp [hconnect, hsize]), if_neg hb]
  constructor
  · intro h
    by_contra hno
    simp only [not_or] at hno
    obtain ⟨hsend, hstream, hcheck⟩ := hno
    have herr := h.error ((checkError_nonpos s send).resolve_right hcheck)
    rw [hcall] at herr
    cases send with
    | none => exact hsend rfl
    | some x =>
      unfold tryWriteCall at herr
      dsimp only at herr
      split_ifs at herr
  · intro h
    by_cases hstream : s.checkError none < 0
    · rw [if_pos hstream] at hcall
      refine ⟨fun _ => ?_, fun h0 => ?_, fun fd hfd => ?_, fun hcr => ?_⟩
      · rw [hcall, checkError_stream hstream send]
      · rw [checkError_stream hstream send] at h0
        omega
      · rw [hcall] at hfd
        cases hfd
      · rw [hcall] at hcr
        cases hcr
    · rw [if_neg hstream] at hcall
      have hnone := (checkError_nonpos s none).resolve_left hstream
      have hzero : s.checkError send = 0 := by
        obtain rfl | h | h := h
        · exact hnone
        · exact absurd h hstream
        · exact h
      refine ⟨fun hlt => by omega, fun _ => hcall, fun fd hfd => ?_, fun hcr => ?_⟩
      · rw [hcall] at hfd
        cases send with
        | none => cases hfd
        | some x =>
          obtain ⟨hp, hi, hx⟩ := checkError_some hzero
          unfold tryWriteCall at hfd
          dsimp only at hfd
          split_ifs at hfd
          cases hfd
          exact ⟨hp, hi, hx⟩
      · rw [hcall] at hcr
        cases send with
        | none => cases hcr
        | some x =>
          obtain ⟨-, -, hx⟩ := checkError_some hzero
          unfold tryWriteCall at hcr
          dsimp only at hcr
          split_ifs at hcr
          omega

def writableStream (type : HandleType) (ipc : Bool) (fd : ℤ) : State :=
  { streamInit type ipc false with fd := fd, flags := { Flags.none false with writable := true } }

/-- A TCP connection, asked to send another one: the descriptor goes to `sendmsg`, where `uv_write2` gives `UV_EINVAL`. And a
TTY is nothing to send: the assertion fails. -/
theorem tryWrite2_sends :
    ((writableStream .tcp false 5).checkError (some ⟨.stream .tcp, 7, false⟩) = UV_EINVAL ∧
      (writableStream .tcp false 5).tryWrite2Call [[1]] (some ⟨.stream .tcp, 7, false⟩) = .sendmsg 7) ∧
    (writableStream .pipe true 5).checkError (some ⟨.stream .tty, 0, false⟩) = UV_EBADF ∧
      (writableStream .pipe true 5).tryWrite2Call [[1]] (some ⟨.stream .tty, 0, false⟩) = .crash := by
  decide

theorem tryWrite2_validates_pipe : (writableStream .pipe true 5).Validates [[1]] (some ⟨.udp, 7, false⟩) :=
  (tryWrite2_validates_iff rfl rfl (by decide)).2 (.inr (.inr (by decide)))

end State

end Libuv.L3.Stream
