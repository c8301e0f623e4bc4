import Libuv.L3Stream.ReadInterest

/-!
# The end of a stream (`stream.c`)

A stream with its descriptors, and the socket under it: `kernel` is what the peer sent and was not read,
each byte with the descriptors that come with it, and `hungUp` is whether the peer has hung up. A read takes
some of it, as much as the kernel likes; it finds the end, and `POLLHUP` is polled, only after the peer hung up.
`bytes` and `passed` are what the reader was given, `sent` what it should be; `eofs` counts the reports of
`UV_EOF`, `recent` those since `uv_read_start`.

A message brings as many descriptors as the control buffer of `uv__read` has room for, and `read` brings
none.

* `end_of_stream`: `UV_EOF` is reported behind everything that was sent, and once for each `uv_read_start`, if
  a short read under `POLLHUP` leaves nothing, and no descriptor is lost.
* `rest_lost`: a message with a descriptor makes an IPC pipe do so.
-/
namespace Libuv.L3.EndOfStream

open List
open Libuv.L3.Stream (Env Fault Events Pc Reader)
open Libuv.L3.QueuedFds (Fds Client)
open Libuv.L3.ReadInterest (isIpc)

abbrev Item := UInt8 × List ℕ

def descriptors (l : List Item) : List ℕ := l.flatMap Prod.snd

/-- `UV__CMSG_FD_COUNT` -/
def cmsgFdCount : ℕ := 64

structure State where
  base : ReadInterest.State
  kernel : List Item
  hungUp : Bool
  sent : List Item
  bytes : List UInt8
  passed : List ℕ
  eofs : ℕ
  recent : ℕ

inductive Label
  | send (data : List Item)
  | hangUp
  | stream (l : Stream.Label)
  /-- `alloc_cb` returns `len` bytes, and `n` are read -/
  | read (env : Env) (len n : ℕ) (mem : ℕ → Bool)
  | accept (client : Client)

/-- `uv__read` finds the end. -/
def zeroRead (s : Stream.State) : Stream.Label → Bool
  | .ret env =>
    match s.pc, env.read with
    | .allocCb .., .eof => env.buf
    | _, _ => false
  | _ => false

def isEof : Pc → Bool
  | .eofCb _ => true
  | _ => false

/-- The step calls `read_cb` with `UV_EOF`. -/
def ends (s : Stream.State) (l : Stream.Label) (t : Stream.State) : Bool :=
  !l.isCall && (isEof t.pc || zeroRead s l)

/-- The step is an `uv_read_start` that starts. -/
def starts (s : Stream.State) (l : Stream.Label) (t : Stream.State) : Bool :=
  match l with
  | .readStart => !s.flags.reading && t.flags.reading
  | _ => false

namespace State
variable (s : State)

def room : ℕ := if isIpc s.base.stream then cmsgFdCount else 0

def after (b : ReadInterest.State) (l : Stream.Label) : State :=
  let e := if ends s.base.stream l b.stream then 1 else 0
  { s with
    base := b
    eofs := s.eofs + e
    recent := if starts s.base.stream l b.stream then 0 else s.recent + e }

/-- The kernel's part of a step that reads no data. -/
def fits : Stream.Label → Bool
  | .io ev _ => !ev.hup || s.hungUp
  | .ret env =>
    match s.base.stream.pc, env.read with
    | .allocCb .., .data .. => !env.buf
    | .allocCb .., .eof => !env.buf || (s.kernel.isEmpty && s.hungUp)
    | _, _ => true
  | _ => true

def onStream (iovmax : ℕ) (l : Stream.Label) : Except Fault State :=
  if s.fits l then do
    let b ← s.base.onStream iovmax l
    .ok (s.after b l)
  else .error .stuck

/-- What `uv__read` makes of the descriptors that come with `n` bytes. -/
def cmsgs (n : ℕ) : List (Option (List ℕ)) :=
  let fds := (descriptors (s.kernel.take n)).take s.room
  if fds = [] then [] else [some fds]

/-- `uv__stream_recv_cmsg` fails. -/
def failed (n : ℕ) (mem : ℕ → Bool) : Bool :=
  isIpc s.base.stream && (s.base.fds.recvCmsg mem (s.cmsgs n)).2.isSome

/-- `n` bytes are read. -/
def taken (n : ℕ) (mem : ℕ → Bool) : State :=
  { s with
    kernel := s.kernel.drop n
    bytes := if s.failed n mem then s.bytes else s.bytes ++ (s.kernel.take n).map Prod.fst
    passed := if s.failed n mem then s.passed else s.passed ++ (descriptors (s.kernel.take n)).take s.room }

def inAlloc : Bool :=
  match s.base.stream.pc with
  | .allocCb .. => true
  | _ => false

def read (iovmax : ℕ) (env : Env) (len n : ℕ) (mem : ℕ → Bool) : Except Fault State :=
  if s.inAlloc ∧ 0 < n ∧ n ≤ len ∧ n ≤ s.kernel.length then do
    let ret := { env with buf := true, read := .data (decide (n < len)) (s.failed n mem) }
    let b ← (if isIpc s.base.stream then s.base.recv iovmax env (decide (n < len)) (s.cmsgs n) mem
      else s.base.onStream iovmax (.ret ret))
    .ok ((s.taken n mem).after b (.ret ret))
  else .error .stuck

def accept (client : Client) : Except Fault State := do
  let b ← s.base.accept client
  .ok { s with base := b }

end State

def step (iovmax : ℕ) (s : State) : Label → Except Fault State
  | .send data => if s.hungUp then .error .stuck else .ok { s with kernel := s.kernel ++ data, sent := s.sent ++ data }
  | .hangUp => .ok { s with hungUp := true }
  | .stream l => s.onStream iovmax l
  | .read env len n mem => s.read iovmax env len n mem
  | .accept client => s.accept client

def initial (type : Stream.HandleType) (ipc b : Bool) : State :=
  ⟨⟨Stream.streamInit type ipc b, ⟨none, none⟩⟩, [], false, [], [], [], 0, 0⟩

def system (iovmax : ℕ) : LTS State Label where
  init s := ∃ type ipc b, s = initial type ipc b
  step s l t := step iovmax s l = .ok t

/-- A short read under `POLLHUP` leaves nothing; what comes with the bytes has room, and memory. -/
def Whole (s : State) : Label → Prop
  | .read _ len n mem =>
    (∀ count ev, s.base.stream.pc = .allocCb count ev → ev.hup = true → n < len → n = s.kernel.length) ∧
      (descriptors (s.kernel.take n)).length ≤ s.room ∧ ∀ fd, mem fd = true
  | _ => True

def State.Drained (s : State) : Prop := s.hungUp = true ∧ s.kernel = []

structure Inv (s : State) : Prop where
  reader : Reader False s.Drained (s.hungUp = true) s.base.stream
  bytes : s.sent.map Prod.fst = s.bytes ++ s.kernel.map Prod.fst
  passed : descriptors s.sent = s.passed ++ descriptors s.kernel
  ended : 0 < s.eofs → s.Drained
  once : s.recent + (if s.base.stream.flags.reading then 1 else 0) ≤ 1

variable {iovmax : ℕ} {s t : State}

/-! ## A step of the stream -/

structure Goes (drained hung : Prop) (s : Stream.State) (l : Stream.Label) (t : Stream.State) : Prop where
  reader : Reader False drained hung t
  keeps : t.flags.reading = true → s.flags.reading = true ∨ l = .readStart
  ends : ends s l t = true → s.flags.reading = true ∧ t.flags.reading = false ∧ drained

variable {drained hung : Prop} {l : Stream.Label} {n : ℕ} {mem : ℕ → Bool} {env : Env}

theorem stream_goes {s : Stream.State} (hs : Reader False drained hung s)
    (ht : l.Truthful drained hung s) : Sat (Goes drained hung s l) (fun _ => True) (Stream.step iovmax s l) := by
  cases hl : l.isCall with
  | true =>
    refine (Stream.step_call hs hl).mono (fun t h => ⟨h.1, h.2.1, fun he => ?_⟩) fun _ _ => trivial
    simp [ends, hl] at he
  | false =>
    have hleft : Sat _ _ (Stream.step iovmax s l) := Stream.step_left hs hl ht
    have hzero : zeroRead s l = true → Sat (fun t => s.flags.reading = true ∧ t.flags.reading = false ∧ drained)
        (fun _ => True) (Stream.step iovmax s l) := by
      intro hz
      unfold zeroRead at hz
      split at hz
      · next env =>
        split at hz
        · next _ count ev hpc hread =>
          show Sat _ _ (s.ret iovmax env)
          unfold Stream.State.ret
          rw [hpc]
          exact (Stream.State.afterAlloc_eof hs hpc hz hread).mono (fun t h => ⟨h.1, h.2, (ht count ev hpc hz).1 hread⟩) fun _ _ => trivial
        · cases hz
      · cases hz
    cases hx : Stream.step iovmax s l with
    | error e => trivial
    | ok t =>
      rw [hx] at hleft hzero
      refine ⟨hleft.toReader, fun h => .inl (hleft.keeps h), fun he => ?_⟩
      have he : isEof t.pc = true ∨ zeroRead s l = true := by simpa [ends, hl] using he
      rcases he with he | he
      · unfold isEof at he
        split at he
        · next ev hpc => exact hleft.ended ev hpc
        · cases he
      · exact hzero he

/-! ## Every step -/

theorem Inv.after (hs : Inv s) {b : ReadInterest.State}
    (h : Goes s.Drained (s.hungUp = true) s.base.stream l b.stream) : Inv (s.after b l) := by
  have honce := hs.once
  refine ⟨h.reader, hs.bytes, hs.passed, fun he => ?_, ?_⟩
  · by_cases hl : ends s.base.stream l b.stream = true
    · exact (h.ends hl).2.2
    · refine hs.ended ?_
      simpa [State.after, hl] using he
  · by_cases hst : starts s.base.stream l b.stream = true
    · simp only [State.after, hst, if_true]
      split <;> omega
    · by_cases hl : ends s.base.stream l b.stream = true
      · obtain ⟨h1, h2, -⟩ := h.ends hl
        rw [if_pos h1] at honce
        simp only [State.after, hst, hl, h2, if_true, Bool.false_eq_true, if_false]
        omega
      · simp only [State.after, hst, hl, Bool.false_eq_true, if_false]
        cases hr : b.stream.flags.reading with
        | false => split at honce <;> simp <;> omega
        | true =>
          have hr' : s.base.stream.flags.reading = true := by
            rcases h.keeps hr with h | rfl
            · exact h
            · simpa [starts, hr] using hst
          rw [if_pos hr'] at honce
          simp only [if_true]
          omega

theorem descriptors_append (a b : List Item) : descriptors (a ++ b) = descriptors a ++ descriptors b :=
  flatMap_append

theorem Inv.taken (hs : Inv s) (hf : s.failed n mem = false)
    (hroom : (descriptors (s.kernel.take n)).length ≤ s.room) : Inv (s.taken n mem) := by
  have hd : s.Drained → (s.taken n mem).Drained := fun h => ⟨h.1, by simp [State.taken, h.2]⟩
  refine ⟨hs.reader.mono hd id, ?_, ?_, fun he => hd (hs.ended he), hs.once⟩
  · show s.sent.map Prod.fst = (if s.failed n mem then _ else _) ++ (s.kernel.drop n).map Prod.fst
    rw [hf, if_neg (by simp), append_assoc, ← map_append, take_append_drop]
    exact hs.bytes
  · show descriptors s.sent = (if s.failed n mem then _ else _) ++ descriptors (s.kernel.drop n)
    rw [hf, if_neg (by simp), take_of_length_le hroom, append_assoc, ← descriptors_append, take_append_drop]
    exact hs.passed

theorem failed_mem (hm : ∀ fd, mem fd = true) : s.failed n mem = false := by
  unfold State.failed
  rw [QueuedFds.recvCmsg_mem hm]
  simp

theorem recv_goes {r : ReadInterest.State} {short : Bool} {cmsgs : List (Option (List ℕ))}
    (hr : Reader False drained hung r.stream)
    (ht : Stream.Label.Truthful drained hung r.stream
      (.ret { env with buf := true, read := .data short (r.fds.recvCmsg mem cmsgs).2.isSome })) :
    Sat (fun b => Goes drained hung r.stream
        (.ret { env with buf := true, read := .data short (r.fds.recvCmsg mem cmsgs).2.isSome }) b.stream)
      (fun _ => True) (r.recv iovmax env short cmsgs mem) := by
  unfold ReadInterest.State.recv
  split
  · exact Sat.ite (fun _ => (stream_goes hr ht).bind fun t ht => ht) fun _ => trivial
  · trivial

theorem onStream_goes {r : ReadInterest.State}
    (hr : Reader False drained hung r.stream) (ht : l.Truthful drained hung r.stream) :
    Sat (fun b => Goes drained hung r.stream l b.stream) (fun _ => True) (r.onStream iovmax l) :=
  Sat.ite (fun _ => trivial) fun _ => (stream_goes hr ht).bind fun _ ht => ht

theorem read_step (hs : Inv s) {len : ℕ} (hw : Whole s (.read env len n mem)) :
    Sat Inv (fun _ => True) (s.read iovmax env len n mem) := by
  obtain ⟨hempty, hroom, hm⟩ := hw
  have hf := failed_mem (s := s) (n := n) hm
  have htaken := hs.taken hf hroom
  refine Sat.ite (fun _ => ?_) fun _ => trivial
  have ht : Stream.Label.Truthful (s.taken n mem).Drained (s.hungUp = true) s.base.stream
      (.ret { env with buf := true, read := .data (decide (n < len)) (s.failed n mem) }) := by
    intro count ev hpc _
    refine ⟨nofun, fun err hd _ hhup => ⟨(hs.reader.unmarked ev (.inl ⟨count, hpc⟩) hhup).2, ?_⟩⟩
    injection hd with hshort
    exact drop_eq_nil_of_le (hempty count ev hpc hhup (of_decide_eq_true hshort)).ge
  refine Sat.bind (Q := fun b => Goes (s.taken n mem).Drained ((s.taken n mem).hungUp = true) (s.taken n mem).base.stream
    (.ret { env with buf := true, read := .data (decide (n < len)) (s.failed n mem) }) b.stream) ?_ fun b hb => htaken.after hb
  refine Sat.ite (fun hipc => ?_) fun _ => onStream_goes htaken.reader ht
  have hfail : s.failed n mem = (s.base.fds.recvCmsg mem (s.cmsgs n)).2.isSome := by
    unfold State.failed
    rw [hipc, Bool.true_and]
  rw [hfail] at ht ⊢
  exact recv_goes htaken.reader ht

theorem stream_step (hs : Inv s) (l : Stream.Label) : Sat Inv (fun _ => True) (s.onStream iovmax l) := by
  refine Sat.ite (fun hfits => ?_) fun _ => trivial
  have ht : l.Truthful s.Drained (s.hungUp = true) s.base.stream := by
    cases l with
    | io ev env =>
      intro hhup
      simpa [State.fits, hhup] using hfits
    | ret env =>
      intro count ev hpc hbuf
      unfold State.fits at hfits
      refine ⟨fun hread => ?_, fun err hread => ?_⟩
      · simp only [hpc, hread, hbuf] at hfits
        simpa [State.Drained, and_comm] using hfits
      · simp [hpc, hread, hbuf] at hfits
    | _ => trivial
  exact (onStream_goes hs.reader ht).bind fun b hb => hs.after hb

theorem accept_step (hs : Inv s) (client : Client) : Sat Inv (fun _ => True) (s.accept client) := by
  have hx : Sat (fun b : ReadInterest.State => Reader False s.Drained (s.hungUp = true) b.stream ∧
      b.stream.flags.reading = s.base.stream.flags.reading) (fun _ => True) (s.base.accept client) := by
    refine Sat.ite (fun _ => trivial) fun _ => ?_
    split
    · trivial
    · next r hr =>
      refine Sat.bind (Q := fun t => Reader False s.Drained (s.hungUp = true) t ∧
        t.flags.reading = s.base.stream.flags.reading) (Sat.ite (fun _ => ?_) fun _ => ⟨hs.reader, rfl⟩) fun t ht => ht
      refine Stream.State.ioStartIn_sat.mono (fun t ht => ?_) fun _ _ => trivial
      rw [ht.2]
      exact ⟨⟨⟨nofun, hs.reader.opened, hs.reader.fresh, hs.reader.eof⟩, hs.reader.alloc, hs.reader.unmarked, hs.reader.short⟩, rfl⟩
  refine hx.bind fun b hb => ⟨hb.1, hs.bytes, hs.passed, hs.ended, ?_⟩
  show s.recent + (if b.stream.flags.reading then 1 else 0) ≤ 1
  rw [hb.2]
  exact hs.once

theorem inv_step (hs : Inv s) {l : Label} (hw : Whole s l) : Sat Inv (fun _ => True) (step iovmax s l) := by
  cases l with
  | send data =>
    refine Sat.ite (fun _ => trivial) fun hup => ?_
    have hno : ¬ s.Drained := fun h => hup h.1
    refine ⟨hs.reader.mono (fun h => absurd h hno) id, ?_, ?_, fun he => absurd (hs.ended he) hno, hs.once⟩
    · rw [map_append, hs.bytes, append_assoc, map_append]
    · rw [descriptors_append, descriptors_append, hs.passed, append_assoc]
  | hangUp =>
    refine ⟨hs.reader.mono (fun h => ⟨rfl, h.2⟩) fun _ => rfl, hs.bytes, hs.passed, fun he => ⟨rfl, (hs.ended he).2⟩, hs.once⟩
  | stream l => exact stream_step hs l
  | read env len n mem => exact read_step hs hw
  | accept client => exact accept_step hs client

theorem initial_inv (h : (system iovmax).init s) : Inv s := by
  obtain ⟨type, ipc, b, rfl⟩ := h
  refine ⟨⟨⟨nofun, nofun, nofun, nofun⟩, nofun, fun ev hi => ?_, nofun⟩, rfl, rfl, nofun, Nat.zero_le 1⟩
  rcases hi with ⟨_, h⟩ | ⟨_, h⟩ <;> cases h

/-- **The end of a stream**: in every run in which a short read under `POLLHUP` leaves nothing and no descriptor is
lost for want of room or memory, `UV_EOF` is reported after the peer hung up and after every byte and every
descriptor was delivered, in order, and at most once since `uv_read_start`. -/
theorem end_of_stream (h : ((system iovmax).restrict Whole).Reachable s) :
    (0 < s.eofs → s.hungUp = true ∧ s.bytes = s.sent.map Prod.fst ∧ s.passed = descriptors s.sent) ∧ s.recent ≤ 1 := by
  have hi : ((system iovmax).restrict Whole).Inductive Inv := by
    refine ⟨fun s (hs : (system iovmax).init s) => initial_inv hs, fun s l t hs ht => ?_⟩
    have : Sat Inv _ (step iovmax s l) := inv_step hs ht.1
    rw [show step iovmax s l = .ok t from ht.2] at this
    exact this
  have hs := hi.reachable h
  refine ⟨fun he => ?_, by have := hs.once; omega⟩
  obtain ⟨hup, hk⟩ := hs.ended he
  have hb := hs.bytes
  have hp := hs.passed
  rw [hk] at hb hp
  refine ⟨hup, ?_, ?_⟩
  · rw [hb, map_nil, append_nil]
  · rw [hp, descriptors, flatMap_nil, append_nil]

/-- An IPC pipe reads two messages, the first with a descriptor, after its peer hung up. -/
theorem end_of_stream_two : ∃ s, ((system 1024).restrict Whole).Reachable s ∧ s.eofs = 1 ∧ s.bytes = [10, 20] ∧
    s.passed = [0] ∧ s.recent ≤ 1 := by
  have h0 : ((system 1024).restrict Whole).Reachable (initial .pipe true false) := .init ⟨_, _, _, rfl⟩
  have h1 := h0.next (.stream (.open 3 true true)) ⟨trivial, rfl⟩
  have h2 := h1.next (.stream .readStart) ⟨trivial, rfl⟩
  have h3 := h2.next (.send [(10, [0]), (20, [])]) ⟨trivial, rfl⟩
  have h4 := h3.next .hangUp ⟨trivial, rfl⟩
  have h5 := h4.next (.stream (.io ⟨true, false, false, true⟩ ⟨[], 0, 0, .again, true⟩)) ⟨trivial, rfl⟩
  have h6 := h5.next (.read ⟨[], 0, 0, .again, true⟩ 1 1 fun _ => true)
    ⟨⟨fun _ _ _ _ h => absurd h (by decide), by decide, fun _ => rfl⟩, rfl⟩
  have h7 := h6.next (.stream (.ret ⟨[], 0, 0, .again, true⟩)) ⟨trivial, rfl⟩
  have h8 := h7.next (.read ⟨[], 0, 0, .again, true⟩ 8 1 fun _ => true) ⟨⟨fun _ _ _ _ _ => rfl, by decide, fun _ => rfl⟩, rfl⟩
  have h9 := h8.next (.stream (.ret ⟨[], 0, 0, .again, true⟩)) ⟨trivial, rfl⟩
  have hend := end_of_stream h9
  exact ⟨_, h9, rfl, (hend.1 (by decide)).2.1, (hend.1 (by decide)).2.2, hend.2⟩

/-- A short read under `POLLHUP` ends a stream whose reader keeps reading, whatever the socket has left. -/
theorem ends_early {strict : Prop} {s : Stream.State} {ev : Events}
    (hs : Reader strict drained hung s) (hpc : s.pc = .readCb .short ev) (hhup : ev.hup = true)
    (hr : s.flags.reading = true) (hcb : s.readCb = true) :
    ∃ t, Stream.step iovmax s (.ret env) = .ok t ∧ ends s (.ret env) t = true := by
  have hfd : s.fd ≠ -1 := by
    have := hs.opened hr
    omega
  have hret : Stream.step iovmax s (.ret env) = s.afterReadCb iovmax .short ev env := by
    show s.ret iovmax env = _
    unfold Stream.State.ret
    rw [hpc]
  rw [hret, Stream.State.afterReadCb, Stream.State.afterRead, if_neg hfd, if_pos ⟨hhup, hr, rfl, by simp [hs.fresh hr]⟩,
    Stream.State.callRead, Stream.State.streamEof, Stream.State.ioStopIn, if_neg hfd, if_pos hcb]
  exact ⟨_, rfl, rfl⟩

/-- **The lost rest**: a message with a descriptor, under `POLLHUP`, ends an IPC pipe with the next
message unread. -/
theorem rest_lost : ∃ s, (system 1024).Reachable s ∧ s.base.stream.flags.closing = false ∧ s.eofs = 1 ∧
    s.bytes = [10] ∧ s.kernel = [(20, [])] ∧ s.sent.map Prod.fst = [10, 20] := by
  have h0 : (system 1024).Reachable (initial .pipe true false) := .init ⟨_, _, _, rfl⟩
  have h1 := h0.next (.stream (.open 3 true true)) rfl
  have h2 := h1.next (.stream .readStart) rfl
  have h3 := h2.next (.send [(10, [0]), (20, [])]) rfl
  have h4 := h3.next .hangUp rfl
  have h5 := h4.next (.stream (.io ⟨true, false, false, true⟩ ⟨[], 0, 0, .again, true⟩)) rfl
  have h6 := h5.next (.read ⟨[], 0, 0, .again, true⟩ 65536 1 fun _ => true) rfl
  have h7 := h6.next (.stream (.ret ⟨[], 0, 0, .again, true⟩)) rfl
  exact ⟨_, h7, rfl, rfl, rfl, rfl, rfl⟩

end Libuv.L3.EndOfStream
