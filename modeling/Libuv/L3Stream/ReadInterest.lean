import Libuv.L3Stream.Reader
import Libuv.L3Stream.QueuedFds

/-!
# What a stream waits for (`stream.c`)

A stream, of any type, with the descriptors it holds. A message of an IPC pipe comes with its control
messages, `recv`, and their failure is what `uv__read` sees of them. `uv_accept` takes the first
descriptor away; behind the last, if the client has it, it starts to wait for `POLLIN`, as it has
to on a stream that listens. This stream may not be reading.

* `read_interest`: `POLLIN` is waited for exactly while the stream reads, in every run in which the last
  descriptor goes to a client only while the stream reads.
* `spins`: otherwise it is waited for while nothing reads, and its event changes nothing.
-/
namespace Libuv.L3.ReadInterest

open Libuv.L3.Stream (Env Fault Reader)
open Libuv.L3.QueuedFds (Fds Client)

structure State where
  stream : Stream.State
  fds : Fds

inductive Label
  | stream (l : Stream.Label)
  | recv (env : Env) (short : Bool) (cmsgs : List (Option (List ℕ))) (mem : ℕ → Bool)
  | accept (client : Client)

/-- `is_ipc` -/
def isIpc (s : Stream.State) : Bool := decide (s.type = .pipe) && s.ipc

def receives (s : Stream.State) : Stream.Label → Bool
  | .ret env =>
    match s.pc, env.read with
    | .allocCb .., .data .. => isIpc s && env.buf
    | _, _ => false
  | _ => false

namespace State
variable (s : State)

/-- A step of the stream; `uv_close` closes what it holds, and data of an IPC pipe is read with `recv`. -/
def onStream (iovmax : ℕ) (l : Stream.Label) : Except Fault State :=
  if receives s.stream l then .error .stuck
  else do
    let t ← Stream.step iovmax s.stream l
    .ok ⟨t, match l with | .close => s.fds.closeAll.1 | _ => s.fds⟩

/-- `alloc_cb` returns, and a message with `cmsgs` is read from an IPC pipe. -/
def recv (iovmax : ℕ) (env : Env) (short : Bool) (cmsgs : List (Option (List ℕ))) (mem : ℕ → Bool) : Except Fault State :=
  match s.stream.pc with
  | .allocCb .. =>
    if isIpc s.stream then
      match s.fds.recvCmsg mem cmsgs with
      | (f, err) => do
        let t ← s.stream.ret iovmax { env with buf := true, read := .data short err.isSome }
        .ok ⟨t, f⟩
    else .error .stuck
  | _ => .error .stuck

/-- `uv_accept` -/
def accept (client : Client) : Except Fault State :=
  if s.stream.destroyed then .error .stuck
  else
    match s.fds.accept client with
    | none => .error .crash
    | some r => do
      let t ← (if r.rearm then s.stream.ioStartIn else .ok s.stream)
      .ok ⟨t, r.fds⟩

end State

def step (iovmax : ℕ) (s : State) : Label → Except Fault State
  | .stream l => s.onStream iovmax l
  | .recv env short cmsgs mem => s.recv iovmax env short cmsgs mem
  | .accept client => s.accept client

def system (iovmax : ℕ) : LTS State Label where
  init s := ∃ type ipc b, s = ⟨Stream.streamInit type ipc b, ⟨none, none⟩⟩
  step s l t := step iovmax s l = .ok t

/-- The last descriptor goes to a client that can open it only while the stream reads. -/
def Wanted (s : State) : Label → Prop
  | .accept .opens => s.fds.acceptedFd ≠ none → s.fds.queuedFds = none → s.stream.flags.reading = true
  | _ => True

abbrev Inv (s : State) : Prop := Reader True True True s.stream

variable {iovmax : ℕ} {s t : State}

theorem initial_inv (h : (system iovmax).init s) : Inv s := by
  obtain ⟨type, ipc, b, rfl⟩ := h
  refine ⟨⟨fun _ => rfl, nofun, nofun, nofun⟩, nofun, fun ev hi => ?_, nofun⟩
  rcases hi with ⟨_, h⟩ | ⟨_, h⟩ <;> cases h

theorem stream_step (hs : Inv s) (l : Stream.Label) :
    Sat (Reader True True True) (fun _ => True) (Stream.step iovmax s.stream l) := by
  cases hl : l.isCall with
  | true => exact (Stream.step_call hs hl).mono (fun _ ht => ht.1) fun _ _ => trivial
  | false =>
    refine (Stream.step_left hs hl ?_).mono (fun _ ht => ht.toReader) fun _ _ => trivial
    cases l with
    | io ev env => exact fun _ => trivial
    | ret env => exact fun _ _ _ _ => ⟨fun _ => trivial, fun _ _ _ _ => trivial⟩
    | _ => trivial

theorem accept_step (hs : Inv s) {client : Client} (hw : Wanted s (.accept client)) :
    Sat Inv (fun _ => True) (s.accept client) := by
  have rearmed : ∀ r, s.fds.accept client = some r → r.rearm = true → s.stream.flags.reading = true := by
    intro r hr hre
    unfold Fds.accept at hr
    cases hfd : s.fds.acceptedFd with
    | none =>
      rw [hfd] at hr
      cases hr
      cases hre
    | some fd =>
      rw [hfd] at hr
      cases client with
      | other =>
        cases hr
        cases hre
      | opens =>
        obtain ⟨g, -, rfl⟩ := Option.map_eq_some_iff.1 hr
        exact hw (by rw [hfd]; nofun) (Option.isNone_iff_eq_none.1 hre)
      | fails =>
        obtain ⟨g, -, rfl⟩ := Option.map_eq_some_iff.1 hr
        cases hre
  refine Sat.ite (fun _ => trivial) fun _ => ?_
  cases hr : s.fds.accept client with
  | none => trivial
  | some r =>
    have hstart : Sat (Reader True True True) (fun _ => True) (if r.rearm then s.stream.ioStartIn else .ok s.stream) := by
      refine Sat.ite (fun hre => Stream.State.ioStartIn_sat.mono (fun t ht => ?_) fun _ _ => trivial) fun _ => hs
      rw [ht.2]
      exact ⟨⟨fun _ => (rearmed r hr hre).symm, hs.opened, hs.fresh, hs.eof⟩, hs.alloc, hs.unmarked, hs.short⟩
    exact hstart.bind fun t ht => ht

theorem inv_step (hs : Inv s) {l : Label} (hw : Wanted s l) : Sat Inv (fun _ => True) (step iovmax s l) := by
  cases l with
  | stream l => exact Sat.ite (fun _ => trivial) fun _ => (stream_step hs l).bind fun t ht => ht
  | recv env short cmsgs mem =>
    show Sat _ _ (s.recv iovmax env short cmsgs mem)
    unfold State.recv
    split
    · exact Sat.ite (fun _ => (stream_step hs (.ret _)).bind fun t ht => ht) fun _ => trivial
    · trivial
  | accept client => exact accept_step hs hw

/-- **Read interest**: in every run in which the last descriptor goes to a client that can open it
only while the stream reads, the stream waits for `POLLIN` exactly while it reads. -/
theorem read_interest (h : ((system iovmax).restrict Wanted).Reachable s) :
    s.stream.pollin = true ↔ s.stream.flags.reading = true := by
  have hi : ((system iovmax).restrict Wanted).Inductive Inv := by
    refine ⟨fun s (hs : (system iovmax).init s) => initial_inv hs, fun s l t hs ht => ?_⟩
    have : Sat Inv _ (step iovmax s l) := inv_step hs ht.1
    rw [show step iovmax s l = .ok t from ht.2] at this
    exact this
  rw [(hi.reachable h).interest trivial]

def ipcPipe : State := ⟨Stream.streamInit .pipe true false, ⟨none, none⟩⟩

/-- The descriptor is accepted while the pipe reads, and nothing is waited for after `uv_read_stop`. -/
theorem read_interest_accepts : ∃ s, ((system 1024).restrict Wanted).Reachable s ∧ s.stream.flags.reading = false ∧
    ¬ s.stream.pollin = true := by
  have h0 : ((system 1024).restrict Wanted).Reachable ipcPipe := .init ⟨_, _, _, rfl⟩
  have h1 := h0.next (.stream (.open 3 true true)) ⟨trivial, rfl⟩
  have h2 := h1.next (.stream .readStart) ⟨trivial, rfl⟩
  have h3 := h2.next (.stream (.io ⟨true, false, false, false⟩ ⟨[], 0, 0, .again, true⟩)) ⟨trivial, rfl⟩
  have h4 := h3.next (.recv ⟨[], 0, 0, .again, true⟩ false [some [0]] fun _ => true) ⟨trivial, rfl⟩
  have h5 := h4.next (.accept .opens) ⟨fun _ _ => rfl, rfl⟩
  have h6 := h5.next (.stream .readStop) ⟨trivial, rfl⟩
  refine ⟨_, h6, rfl, fun h => ?_⟩
  cases (read_interest h6).1 h

/-- **The spin**: an IPC pipe stops reading, its last descriptor is accepted, and it waits for `POLLIN`, an event
that changes nothing and calls nobody. -/
theorem spins : ∃ s, (system 1024).Reachable s ∧ s.stream.pc = .idle ∧ s.stream.flags.closing = false ∧
    s.stream.connectReq = none ∧ s.stream.pollin = true ∧ s.stream.flags.reading = false ∧
    ∀ env, step 1024 s (.stream (.io ⟨true, false, false, false⟩ env)) = .ok s := by
  have h0 : (system 1024).Reachable ipcPipe := .init ⟨_, _, _, rfl⟩
  have h1 := h0.next (.stream (.open 3 true true)) rfl
  have h2 := h1.next (.stream .readStart) rfl
  have h3 := h2.next (.stream (.io ⟨true, false, false, false⟩ ⟨[], 0, 0, .again, true⟩)) rfl
  have h4 := h3.next (.recv ⟨[], 0, 0, .again, true⟩ false [some [0]] fun _ => true) rfl
  have h5 := h4.next (.stream .readStop) rfl
  have h6 := h5.next (.stream (.ret ⟨[], 0, 0, .again, true⟩)) rfl
  have h7 := h6.next (.accept .opens) rfl
  exact ⟨_, h7, rfl, rfl, rfl, rfl, rfl, fun _ => rfl⟩

end Libuv.L3.ReadInterest
