import Libuv.L3Stream.SendHandle
import Libuv.L3Stream.Udp

/-!
# Calls that submit a request and fail (`uv_write2`, `uv__udp_send`, `uv_fs_read`, `uv_fs_write`)

Each of the four makes a request, registers it with the loop and allocates its array of buffers, if there are more than the
four that fit into the request; each in its own order. Here are the errors of the calls with what they leave: of a stream the
state of `Stream`, of a UDP handle that of `Udp` with its descriptor and `loop->active_reqs.count`, of a file operation the
count and the work that was handed to the thread pool.

* `unchanged_iff`: that is what it found, if and only if the call is not a `uv_write2` that finds no memory.
* `write2_registers`: such a `uv_write2`.
-/
namespace Libuv.L3.Submission
open Libuv.L3.Stream (Buf Outcome Fault SendHandle UV_EINVAL UV_ENOMEM)

/-! ## The source -/

/-- `ARRAY_SIZE(req->bufsml)` -/
def bufsml : ℕ := 4

/-- With the result of the call.
mirrors unix/stream.c:1499-1577 -/
def write2 (iovmax : ℕ) (s : Stream.State) (bufs : List Buf) (send : Option SendHandle) (cb alloc : Bool)
    (outs : List Outcome) : Option (ℤ × Stream.State) :=
  match s.write2 iovmax bufs (send.map SendHandle.hasFd) cb alloc outs with
  | .ok t => some (s.write2Error bufs send alloc, t)
  | .error _ => none

structure UdpLoop where
  handle : Udp.State
  /-- `fd != -1` -/
  fd : Bool
  activeReqs : ℕ
  deriving DecidableEq

/-- What `uv__udp_bind` comes to: no socket, a socket that cannot be bound, or one that is. -/
inductive Bind
  | noSocket (err : ℤ)
  | refused (err : ℤ)
  | bound
  deriving DecidableEq

def Bind.err : Bind → ℤ
  | .noSocket err | .refused err => err
  | .bound => 0

def Bind.fd : Bind → Bool
  | .noSocket _ => false
  | _ => true

/-- mirrors unix/udp.c:600-633 -/
def maybeDeferredBind (s : UdpLoop) (bind : Bind) : ℤ × UdpLoop := if s.fd then (0, s) else (bind.err, { s with fd := bind.fd })

/-- From the registration on.
mirrors unix/udp.c:755-798 -/
def udpSubmit (mmsg : Bool) (s : UdpLoop) (bufs : List ℕ) (sendCb alloc : Bool) (k : Udp.Kernel) : ℤ × UdpLoop :=
  let s : UdpLoop := { s with activeReqs := s.activeReqs + 1 }
  if bufsml < bufs.length ∧ alloc = false then (UV_ENOMEM, { s with activeReqs := s.activeReqs - 1 })
  else (0, { s with handle := Udp.send s.handle mmsg bufs sendCb false k })

/-- `addr` is whether there is an address.
mirrors unix/udp.c:731-799 -/
def udpSend (mmsg : Bool) (s : UdpLoop) (bufs : List ℕ) (addr : Bool) (bind : Bind) (sendCb alloc : Bool) (k : Udp.Kernel) :
    Option (ℤ × UdpLoop) :=
  if bufs = [] then none
  else if addr then
    let r := maybeDeferredBind s bind
    some (if r.1 ≠ 0 then r else udpSubmit mmsg r.2 bufs sendCb alloc k)
  else some (udpSubmit mmsg s bufs sendCb alloc k)

inductive FsType
  | read
  | write
  deriving DecidableEq

/-- `work` is what `uv__work_submit` got. -/
structure FsLoop where
  activeReqs : ℕ
  work : List FsType
  deriving DecidableEq

/-- `req` and `bufs` are `NULL` or not; `result` is what the operation gives that is done at once, without a callback.
mirrors unix/fs.c:95-110, 152-168 -/
def fsSubmit (type : FsType) (s : FsLoop) (req : Bool) (bufs : Option ℕ) (cb alloc : Bool) (result : ℤ) : ℤ × FsLoop :=
  if req = false then (UV_EINVAL, s)
  else
    match bufs with
    | none | some 0 => (UV_EINVAL, s)
    | some nbufs =>
      if bufsml < nbufs ∧ alloc = false then (UV_ENOMEM, s)
      else if cb then (0, { s with activeReqs := s.activeReqs + 1, work := s.work ++ [type] })
      else (result, s)

/-- mirrors unix/fs.c:1996-2021 -/
def fsRead := fsSubmit .read

/-- mirrors unix/fs.c:2165-2191 -/
def fsWrite := fsSubmit .write

/-! ## What a failed call leaves -/

inductive Call
  | write2 (iovmax : ℕ) (s : Stream.State) (bufs : List Buf) (send : Option SendHandle) (cb alloc : Bool)
      (outs : List Outcome)
  | udpSend (mmsg : Bool) (s : UdpLoop) (bufs : List ℕ) (addr : Bool) (bind : Bind) (sendCb alloc : Bool) (k : Udp.Kernel)
  | fsRead (s : FsLoop) (req : Bool) (bufs : Option ℕ) (cb alloc : Bool) (result : ℤ)
  | fsWrite (s : FsLoop) (req : Bool) (bufs : Option ℕ) (cb alloc : Bool) (result : ℤ)

def Call.Fails : Call → Prop
  | .write2 iovmax s bufs send cb alloc outs => ∃ e t, Submission.write2 iovmax s bufs send cb alloc outs = some (e, t) ∧ e < 0
  | .udpSend mmsg s bufs addr bind sendCb alloc k =>
    ∃ e t, Submission.udpSend mmsg s bufs addr bind sendCb alloc k = some (e, t) ∧ e < 0
  | .fsRead s req bufs cb alloc result => (Submission.fsRead s req bufs cb alloc result).1 < 0
  | .fsWrite s req bufs cb alloc result => (Submission.fsWrite s req bufs cb alloc result).1 < 0

/-- The count of active requests, the queues, their sizes and the events of the watcher are as before. A stream is as it was
in every respect, a UDP handle but for its descriptor. -/
def Call.Unchanged : Call → Prop
  | .write2 iovmax s bufs send cb alloc outs => ∀ e t, Submission.write2 iovmax s bufs send cb alloc outs = some (e, t) → t = s
  | .udpSend mmsg s bufs addr bind sendCb alloc k =>
    ∀ e t, Submission.udpSend mmsg s bufs addr bind sendCb alloc k = some (e, t) →
      t.handle = s.handle ∧ t.activeReqs = s.activeReqs
  | .fsRead s req bufs cb alloc result => (Submission.fsRead s req bufs cb alloc result).2 = s
  | .fsWrite s req bufs cb alloc result => (Submission.fsWrite s req bufs cb alloc result).2 = s

/-- A `uv_write2` that passes its check and finds no memory for more than four buffers. -/
def Call.NoMemory : Call → Prop
  | .write2 _ s bufs send _ alloc _ => s.checkError send = 0 ∧ bufsml < bufs.length ∧ alloc = false
  | _ => False

section Failed
variable {iovmax : ℕ} {s t : Stream.State} {bufs : List Buf} {send : Option SendHandle} {cb alloc : Bool} {outs : List Outcome}
  {e : ℤ}

theorem write2_failed (h : write2 iovmax s bufs send cb alloc outs = some (e, t)) (he : e < 0) :
    t = if s.checkError send < 0 then s else s.reqRegister := by
  unfold write2 at h
  split at h
  · next u hu =>
    cases h
    have hb : bufs ≠ [] := fun hb => by
      unfold Stream.State.write2 at hu
      rw [if_pos hb] at hu
      cases hu
    by_cases hc : s.checkError send < 0
    · rw [if_pos hc]
      rw [Stream.State.write2_invalid hb hc] at hu
      exact (Except.ok.inj hu).symm
    · have h0 := (Stream.State.checkError_nonpos s send).resolve_left hc
      unfold Stream.State.write2Error at he
      rw [if_neg hc]
      split_ifs at he with hm
      · unfold Stream.State.write2 at hu
        rw [if_neg hb, if_neg (by rw [Stream.State.checkBeforeWrite_eq, decide_eq_true h0]; exact Bool.noConfusion)] at hu
        rw [if_pos hm] at hu
        exact (Except.ok.inj hu).symm
      · omega
  · cases h

theorem udpSubmit_failed {mmsg : Bool} {s : UdpLoop} {bufs : List ℕ} {k : Udp.Kernel}
    (he : (udpSubmit mmsg s bufs cb alloc k).1 < 0) : (udpSubmit mmsg s bufs cb alloc k).2 = s := by
  unfold udpSubmit at he ⊢
  split_ifs at he ⊢
  · rfl
  · exact absurd he (Int.lt_irrefl 0)

theorem udpSend_failed {mmsg addr : Bool} {s t : UdpLoop} {bufs : List ℕ} {bind : Bind} {k : Udp.Kernel}
    (h : udpSend mmsg s bufs addr bind cb alloc k = some (e, t)) (he : e < 0) :
    t.handle = s.handle ∧ t.activeReqs = s.activeReqs := by
  have hbind : (maybeDeferredBind s bind).2.handle = s.handle ∧ (maybeDeferredBind s bind).2.activeReqs = s.activeReqs := by
    unfold maybeDeferredBind
    split <;> exact ⟨rfl, rfl⟩
  have hsubmit : ∀ {u : UdpLoop}, udpSubmit mmsg u bufs cb alloc k = (e, t) → t = u := fun {u} hu => by
    have := @udpSubmit_failed cb alloc mmsg u bufs k (by rw [hu]; exact he)
    rwa [hu] at this
  unfold udpSend at h
  split at h
  · cases h
  · split at h
    · have h := Option.some.inj h
      split at h
      · rw [h] at hbind
        exact hbind
      · rw [hsubmit h]
        exact hbind
    · rw [hsubmit (Option.some.inj h)]
      exact ⟨rfl, rfl⟩

theorem fsSubmit_failed {type : FsType} {s : FsLoop} {req : Bool} {bufs : Option ℕ} {result : ℤ}
    (he : (fsSubmit type s req bufs cb alloc result).1 < 0) : (fsSubmit type s req bufs cb alloc result).2 = s := by
  unfold fsSubmit at he ⊢
  split at he
  · next hr => rw [if_pos hr]
  · next hr =>
    rw [if_neg hr]
    split at he
    · rfl
    · rfl
    · split_ifs at he ⊢
      · rfl
      · exact absurd he (Int.lt_irrefl 0)
      · rfl

end Failed

/-- A call that returns an error has left the loop and the handle as they were exactly when it is not a `uv_write2` without
memory for its buffers. -/
theorem unchanged_iff {c : Call} (h : c.Fails) : c.Unchanged ↔ ¬ c.NoMemory := by
  cases c with
  | write2 iovmax s bufs send cb alloc outs =>
    obtain ⟨e, t, hc, he⟩ := h
    have ht := write2_failed hc he
    have hcode : e = s.write2Error bufs send alloc := by
      unfold write2 at hc
      split at hc
      · cases hc
        rfl
      · cases hc
    constructor
    · intro hu hm
      obtain ⟨h0, -⟩ := hm
      rw [if_neg (by omega), hu e t hc] at ht
      have := congrArg Stream.State.activeReqs ht
      simp [Stream.State.reqRegister] at this
    · intro hn e' t' hc'
      cases hc.symm.trans hc'
      by_cases hlt : s.checkError send < 0
      · rw [ht, if_pos hlt]
      · have h0 := (Stream.State.checkError_nonpos s send).resolve_left hlt
        rw [hcode, Stream.State.write2Error] at he
        split_ifs at he with hm
        · exact absurd ⟨h0, hm⟩ hn
        · omega
  | udpSend mmsg s bufs addr bind sendCb alloc k =>
    obtain ⟨e, t, hc, he⟩ := h
    refine ⟨fun _ => id, fun _ e' t' hc' => ?_⟩
    cases hc.symm.trans hc'
    exact udpSend_failed hc he
  | fsRead s req bufs cb alloc result | fsWrite s req bufs cb alloc result => exact ⟨fun _ => id, fun _ => fsSubmit_failed h⟩

/-- Five buffers and no memory: `UV_ENOMEM`, and one more active request. -/
theorem write2_registers : ∃ e t, write2 1024 (.writableStream .tcp false 5) (List.replicate 5 [1]) none true false [] = some (e, t) ∧
    e = UV_ENOMEM ∧ (Stream.State.writableStream .tcp false 5).activeReqs = 0 ∧ t.activeReqs = 1 :=
  ⟨_, _, rfl, by decide⟩

/-- `uv__udp_send`, its sibling, takes the registration back. -/
theorem udpSend_unchanged :
    (Call.udpSend true ⟨.fresh, true, 0⟩ [1, 1, 1, 1, 1] false .bound true false fun _ => .again).Unchanged := by
  have hf : (Call.udpSend true ⟨.fresh, true, 0⟩ [1, 1, 1, 1, 1] false .bound true false fun _ => .again).Fails :=
    ⟨UV_ENOMEM, _, rfl, by decide⟩
  exact (unchanged_iff hf).2 id

end Libuv.L3.Submission
