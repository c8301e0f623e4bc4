import Mathlib.Data.List.Range
import Mathlib.Tactic

/-!
# Receiving datagrams (`uv__udp_recvmsg`)

`libuv/src/unix/udp.c:187-312` and `uv_udp_recv_start`, `uv_udp_recv_stop` and `uv_close` as far as they matter for it; `Udp`
has the send side, and leaves the loop of `uv__udp_recvmsg` out. `alloc_cb` gives a buffer; `recv_cb` may call the API; the
kernel gives datagrams or an error, with the calls that a signal interrupts already made again. `log` is what happened,
`allocs` how many buffers there have been, and a buffer goes by its number.

* `recvmsg_bounded_iff`: the loop ends within 32 rounds, whatever the kernel gives and `recv_cb` does, if and only if
  `recvmmsg` is not used or none of the first 32 buffers is shorter than a datagram's 64 KiB.
* `recvmsg_endless`: with shorter ones it need not end at all.
* `kept_iff`: every buffer is handed back once and every datagram passed on if and only if no callback for a chunk leaves
  the handle stopped.
-/
namespace Libuv.L3.UdpRecv

open List Option

/-! ## The source -/

/-- `UV__UDP_DGRAM_MAXSIZE` -/
def dgramMaxsize : ℕ := 65536

/-- `UV__MMSG_MAXWIDTH` -/
def mmsgMaxwidth : ℕ := 20

/-- `UV_UDP_PARTIAL`, `UV_UDP_MMSG_CHUNK` and `UV_UDP_MMSG_FREE` -/
def UDP_PARTIAL : ℕ := 2
def UDP_MMSG_CHUNK : ℕ := 8
def UDP_MMSG_FREE : ℕ := 16

/-- `UV_ENOBUFS` -/
def ENOBUFS : ℤ := -105

/-- `recv_cb` (with `alloc_cb`) is set, `fd` is not -1, the watcher is active for `POLLIN`, and `uv_close` was called. -/
structure Handle where
  recvCb : Bool
  fd : Bool
  pollin : Bool
  closing : Bool
  deriving DecidableEq

/-- What the user calls; `bind` is whether a socket can be made and bound where there is none. -/
inductive Call
  | recvStop
  | recvStart (bind : Bool)
  | close
  deriving DecidableEq

namespace Handle
variable (h : Handle)

/-- mirrors unix/udp.c:1406-1416 -/
def recvStop : Handle := { h with recvCb := false, pollin := false }

/-- mirrors unix/udp.c:1380-1403 -/
def recvStart (bind : Bool) : Handle :=
  if h.pollin then h
  else if h.fd || bind then { h with recvCb := true, fd := true, pollin := true }
  else h

/-- `none` where `uv_close` fails its assertion.
mirrors unix/udp.c:88-96 -/
def close : Option Handle := if h.closing then none else some { h with fd := false, pollin := false, closing := true }

def call : Call → Option Handle
  | .recvStop => some h.recvStop
  | .recvStart bind => some (h.recvStart bind)
  | .close => h.close

def calls : List Call → Handle → Option Handle
  | [], h => some h
  | c :: cs, h => (h.call c).bind (calls cs)

end Handle

structure Datagram where
  data : List UInt8
  trunc : Bool
  deriving DecidableEq

/-- The arguments of `recv_cb`: the buffer with this number, or a chunk of it; the datagram whose sender is given. -/
structure Callback where
  nread : ℤ
  buf : ℕ
  chunk : Option ℕ
  datagram : Option Datagram
  flags : ℕ
  deriving DecidableEq

inductive Event
  | alloc (buf : ℕ)
  | received (ds : List Datagram)
  | recvCb (c : Callback)
  deriving DecidableEq

/-- `count` is that of the `uv__udp_recvmsg` that runs. -/
structure State where
  handle : Handle
  count : Option ℤ
  allocs : ℕ
  log : List Event
  deriving DecidableEq

/-- What `recvmmsg` and `recvmsg` give: `EAGAIN` or `EWOULDBLOCK`, another error, or datagrams. -/
inductive Answer
  | again
  | error (errno : ℕ)
  | received (ds : List Datagram)

/-- What a round meets: the length of the buffer (`none` is no buffer), the kernel, and the calls of the round's callbacks,
one after the other. -/
structure Round where
  buf : Option ℕ
  answer : Answer
  cbs : ℕ → List Call

namespace State
variable (s : State)

def emit (e : Event) : State := { s with log := s.log ++ [e] }

/-- `handle->recv_cb(..)`, which has to be there. -/
def callback (c : Callback) (cs : List Call) : Option State :=
  if s.handle.recvCb then (s.handle.calls cs).map fun h => { s.emit (.recvCb c) with handle := h } else none

end State

/-- The loop over the datagrams of a batch, from the `k`-th on.
mirrors unix/udp.c:225-236 -/
def chunkLoop (i : ℕ) (cbs : ℕ → List Call) : List Datagram → ℕ → State → Option State
  | [], _, s => some s
  | d :: ds, k, s =>
    if s.handle.recvCb then
      (s.callback ⟨d.data.length, i, some k, some d, UDP_MMSG_CHUNK ||| if d.trunc then UDP_PARTIAL else 0⟩ (cbs k)).bind
        (chunkLoop i cbs ds (k + 1))
    else some s

/-- The number of datagrams a buffer has room for. -/
def chunks (len : ℕ) : ℕ := min (len / dgramMaxsize) mmsgMaxwidth

/-- With the result.
mirrors unix/udp.c:187-243 -/
def udpRecvmmsg (i : ℕ) (r : Round) (s : State) : Option (State × ℤ) :=
  match r.answer with
  | .again => (s.callback ⟨0, i, none, none, 0⟩ (r.cbs 0)).map (·, -1)
  | .error errno => (s.callback ⟨-errno, i, none, none, 0⟩ (r.cbs 0)).map (·, -1)
  | .received [] => (s.callback ⟨0, i, none, none, 0⟩ (r.cbs 0)).map (·, 0)
  | .received ds =>
    (chunkLoop i r.cbs ds 0 (s.emit (.received ds))).bind fun s =>
      if s.handle.recvCb then (s.callback ⟨0, i, none, none, UDP_MMSG_FREE⟩ (r.cbs ds.length)).map (·, (ds.length : ℤ))
      else some (s, ds.length)

/-- `recvmsg` gives one datagram.
mirrors unix/udp.c:280-306 -/
def udpRecvOne (i : ℕ) (r : Round) (s : State) : Option (State × ℤ) :=
  match r.answer with
  | .again => (s.callback ⟨0, i, none, none, 0⟩ (r.cbs 0)).map (·, -1)
  | .error errno => (s.callback ⟨-errno, i, none, none, 0⟩ (r.cbs 0)).map (·, -1)
  | .received [d] =>
    ((s.emit (.received [d])).callback ⟨d.data.length, i, none, some d, if d.trunc then UDP_PARTIAL else 0⟩ (r.cbs 0)).map
      (·, (d.data.length : ℤ))
  | .received _ => none

def goesOn (nread count : ℤ) (h : Handle) : Bool := decide (nread ≠ -1 ∧ 0 < count) && h.fd && h.recvCb

def State.next (s : State) (nread count : ℤ) : State :=
  { s with count := if goesOn nread count s.handle then some count else none }

/-- One round of the loop, `mmsg` for `uv_udp_using_recvmmsg`.
mirrors unix/udp.c:262-311 -/
def round (mmsg : Bool) (r : Round) (count : ℤ) (s : State) : Option State :=
  let i := s.allocs
  let s : State := { s.emit (.alloc i) with allocs := i + 1 }
  match r.buf with
  | none | some 0 => (s.callback ⟨ENOBUFS, i, none, none, 0⟩ (r.cbs 0)).map fun s => { s with count := none }
  | some _ =>
    if mmsg then
      (udpRecvmmsg i r s).map fun p => p.1.next p.2 (if 0 < p.2 then count - p.2 else count)
    else (udpRecvOne i r s).map fun p => p.1.next p.2 (count - 1)

/-- `uv__udp_recvmsg` before its first round.
mirrors unix/udp.c:254-260 -/
def enter (s : State) : Option State := if s.handle.recvCb then some { s with count := some 32 } else none

/-! ## Runs -/

/-- A call of the user outside of the callbacks, the event of the poller, a round. -/
inductive Action
  | call (c : Call)
  | poll
  | round (r : Round)

def step (mmsg : Bool) (s : State) : Action → Option State
  | .call c =>
    if s.count = none ∧ s.handle.closing = false then (s.handle.call c).map fun h => { s with handle := h } else none
  | .poll => if s.count = none ∧ s.handle.pollin then enter s else none
  | .round r => s.count.bind fun count => round mmsg r count s

def run (mmsg : Bool) : List Action → State → Option State
  | [], s => some s
  | a :: as, s => (step mmsg s a).bind (run mmsg as)

/-- After `uv_udp_init_ex`, with a socket or without. -/
def init (fd : Bool) : State := ⟨⟨false, fd, false, false⟩, none, 0, []⟩

/-! ## The bound -/

/-- What the calls document: `recvmmsg` gives 0 only where it is asked for none, `recvmsg` one datagram. -/
def Answer.Fits (mmsg : Bool) (len : ℕ) : Answer → Prop
  | .again | .error _ => True
  | .received ds => if mmsg then ds.length ≤ chunks len ∧ (ds = [] → chunks len = 0) else ds.length = 1

/-- `n` rounds, from the `i`-th on; none after the last. -/
def rounds (mmsg : Bool) (rs : ℕ → Round) : ℕ → ℕ → State → Option State
  | 0, _, s => some s
  | n + 1, i, s =>
    match s.count with
    | none => some s
    | some count => (round mmsg (rs i) count s).bind (rounds mmsg rs n (i + 1))

/-- With buffers of these lengths the loop has ended after 32 rounds. -/
def Bounded (mmsg : Bool) (lens : ℕ → ℕ) : Prop :=
  ∀ (rs : ℕ → Round) (s : State), s.count = none → (∀ i, (rs i).buf = some (lens i)) →
    (∀ i, (rs i).answer.Fits mmsg (lens i)) → ∀ t u, enter s = some t → rounds mmsg rs 32 0 t = some u → u.count = none

section Bound
variable {mmsg : Bool} {r : Round} {rs : ℕ → Round} {count : ℤ} {s t : State}

theorem State.next_count {nread c : ℤ} (h : (s.next nread count).count = some c) :
    c = count ∧ nread ≠ -1 ∧ 0 < count ∧ s.handle.fd = true ∧ s.handle.recvCb = true := by
  unfold State.next at h
  split at h
  · next hg =>
    simp only [goesOn, Bool.and_eq_true, decide_eq_true_eq] at hg
    exact ⟨(some.inj h).symm, hg.1.1.1, hg.1.1.2, hg.1.2, hg.2⟩
  · cases h

theorem udpRecvmmsg_pos {i len : ℕ} {p : State × ℤ} (hf : r.answer.Fits true len) (hlen : dgramMaxsize ≤ len)
    (h : udpRecvmmsg i r s = some p) : p.2 = -1 ∨ 0 < p.2 := by
  have hchunks : 0 < chunks len := by
    have : 0 < len / dgramMaxsize := Nat.div_pos hlen (by decide)
    exact lt_min this (by decide)
  unfold udpRecvmmsg at h
  split at h
  · obtain ⟨_, -, rfl⟩ := map_eq_some_iff.1 h
    exact .inl rfl
  · obtain ⟨_, -, rfl⟩ := map_eq_some_iff.1 h
    exact .inl rfl
  · next ha =>
    rw [ha] at hf
    exact absurd (hf.2 rfl) (by omega)
  · next ds hne ha =>
    have hpos : 0 < ds.length := length_pos_iff.2 hne
    obtain ⟨u, -, h⟩ := bind_eq_some_iff.1 h
    split at h
    · obtain ⟨_, -, rfl⟩ := map_eq_some_iff.1 h
      exact .inr (Int.natCast_pos.2 hpos)
    · cases h
      exact .inr (Int.natCast_pos.2 hpos)

theorem round_goesOn (h : round mmsg r count s = some t) {c : ℤ} (hc : t.count = some c) :
    0 < c ∧ (mmsg = false ∧ c = count - 1 ∨
      mmsg = true ∧ ∃ u p, udpRecvmmsg s.allocs r u = some p ∧ p.2 ≠ -1 ∧ c = if 0 < p.2 then count - p.2 else count) := by
  unfold round at h
  split at h
  · obtain ⟨u, -, rfl⟩ := map_eq_some_iff.1 h
    cases hc
  · obtain ⟨u, -, rfl⟩ := map_eq_some_iff.1 h
    cases hc
  · split at h
    · next hm =>
      obtain ⟨p, hp, rfl⟩ := map_eq_some_iff.1 h
      obtain ⟨rfl, hne, hpos, -⟩ := State.next_count hc
      exact ⟨hpos, .inr ⟨hm, _, p, hp, hne, rfl⟩⟩
    · next hm =>
      obtain ⟨p, -, rfl⟩ := map_eq_some_iff.1 h
      obtain ⟨rfl, -, hpos, -⟩ := State.next_count hc
      exact ⟨hpos, .inl ⟨by simpa using hm, rfl⟩⟩

theorem round_count {len : ℕ} (hf : r.answer.Fits mmsg len)
    (hlen : mmsg = false ∨ dgramMaxsize ≤ len) (h : round mmsg r count s = some t) {c : ℤ} (hc : t.count = some c) :
    c + 1 ≤ count := by
  obtain ⟨-, ⟨-, rfl⟩ | ⟨rfl, u, p, hp, hne, rfl⟩⟩ := round_goesOn h hc
  · omega
  · have hpos := (udpRecvmmsg_pos hf (hlen.resolve_left (by simp)) hp).resolve_left hne
    omega

theorem rounds_end {lens : ℕ → ℕ} {n i : ℕ} (hf : ∀ i, (rs i).answer.Fits mmsg (lens i))
    (hlen : mmsg = false ∨ ∀ j < i + n, dgramMaxsize ≤ lens j) (hs : ∀ c, s.count = some c → 0 < c ∧ c ≤ n)
    (h : rounds mmsg rs n i s = some t) : t.count = none := by
  induction n generalizing i s with
  | zero =>
    cases h
    cases hc : t.count with
    | none => rfl
    | some c => have := hs c hc; omega
  | succ n ih =>
    unfold rounds at h
    split at h
    · next hc => cases h; exact hc
    · next c hc =>
      obtain ⟨u, hu, h⟩ := bind_eq_some_iff.1 h
      refine ih (i := i + 1) (hlen.imp_right fun hl j hj => hl j (by omega)) (fun d hd => ⟨(round_goesOn hu hd).1, ?_⟩) h
      have hcount := round_count (hf i) (hlen.imp_right fun hl => hl i (by omega)) hu hd
      have := (hs c hc).2
      push_cast at this
      omega

/-- `recv_cb` only looks on, and there is a datagram whenever the kernel is asked for one. -/
def idleRound (len : ℕ) : Round := ⟨some len, .received (if chunks len = 0 then [] else [⟨[], false⟩]), fun _ => []⟩

theorem idleRound_fits (len : ℕ) : (idleRound len).answer.Fits true len := by
  unfold Answer.Fits idleRound
  by_cases hc : chunks len = 0
  · simp [hc]
  · rw [if_neg hc]
    exact ⟨Nat.one_le_iff_ne_zero.2 hc, fun h => by cases h⟩

theorem chunks_eq_zero {len : ℕ} : chunks len = 0 ↔ len < dgramMaxsize := by
  unfold chunks
  simp [dgramMaxsize, mmsgMaxwidth]

theorem callback_nil (hr : s.handle.recvCb = true) (c : Callback) : s.callback c [] = some (s.emit (.recvCb c)) := by
  unfold State.callback
  rw [if_pos hr]
  rfl

theorem round_idle {len : ℕ} (hlen : 0 < len) (hfd : s.handle.fd = true) (hr : s.handle.recvCb = true)
    (hc : 0 < count - if len < dgramMaxsize then 0 else 1) :
    ∃ t, round true (idleRound len) count s = some t ∧ t.handle = s.handle ∧
      t.count = some (count - if len < dgramMaxsize then 0 else 1) := by
  have hgo : goesOn (if len < dgramMaxsize then 0 else 1) (count - if len < dgramMaxsize then 0 else 1) s.handle = true := by
    simp only [goesOn, hfd, hr, Bool.and_true, decide_eq_true_eq]
    exact ⟨by split <;> decide, hc⟩
  obtain ⟨k, rfl⟩ : ∃ k, len = k + 1 := ⟨len - 1, by omega⟩
  unfold round
  by_cases hs : k + 1 < dgramMaxsize
  · simp only [hs, if_true, Int.sub_zero] at hgo ⊢
    simp [idleRound, udpRecvmmsg, chunks_eq_zero.2 hs, callback_nil, hr, State.emit, State.next, hgo]
  · have hch : chunks (k + 1) ≠ 0 := fun h => hs (chunks_eq_zero.1 h)
    simp only [hs, if_false] at hgo ⊢
    simp [idleRound, udpRecvmmsg, hch, chunkLoop, callback_nil, hr, State.emit, State.next, hgo]

theorem rounds_idle {lens : ℕ → ℕ} {n i : ℕ} (hlen : ∀ i, 0 < lens i) (hfd : s.handle.fd = true) (hr : s.handle.recvCb = true)
    (hs : s.count = some count)
    (hc : (n : ℤ) < count ∨ (n : ℤ) ≤ count ∧ ∃ j, i ≤ j ∧ j < i + n ∧ lens j < dgramMaxsize) :
    ∃ t c, rounds true (fun i => idleRound (lens i)) n i s = some t ∧ t.count = some c := by
  induction n generalizing i s count with
  | zero => exact ⟨s, count, rfl, hs⟩
  | succ n ih =>
    push_cast at hc
    have hpos : 0 < count - if lens i < dgramMaxsize then 0 else 1 := by
      split
      · omega
      · next hi =>
        obtain hc | ⟨hc, j, hij, hj, hl⟩ := hc
        · omega
        · have hne : i ≠ j := fun h => hi (h ▸ hl)
          omega
    obtain ⟨t, ht, hh, htc⟩ := round_idle (hlen i) hfd hr hpos
    have hc' : (n : ℤ) < (count - if lens i < dgramMaxsize then 0 else 1) ∨
        (n : ℤ) ≤ (count - if lens i < dgramMaxsize then 0 else 1) ∧
          ∃ j, i + 1 ≤ j ∧ j < i + 1 + n ∧ lens j < dgramMaxsize := by
      by_cases hi : lens i < dgramMaxsize
      · exact .inl (by omega)
      · refine hc.imp (fun h => by omega) fun h => ⟨by omega, ?_⟩
        obtain ⟨j, hij, hj, hl⟩ := h.2
        exact ⟨j, Nat.lt_of_le_of_ne hij fun h => hi (h ▸ hl), by omega, hl⟩
    obtain ⟨u, c, hu, huc⟩ := ih (hh ▸ hfd) (hh ▸ hr) htc hc'
    refine ⟨u, c, ?_, huc⟩
    unfold rounds
    rw [hs]
    simp [ht, hu]

end Bound

def receiving : State := ⟨⟨true, true, true, false⟩, none, 0, []⟩

/-- The loop ends within 32 rounds, whatever the kernel gives and `recv_cb` calls, exactly when it does not use `recvmmsg`, or
none of its first 32 buffers is too short for a datagram of the maximal size. -/
theorem recvmsg_bounded_iff (mmsg : Bool) {lens : ℕ → ℕ} (hlen : ∀ i, 0 < lens i) :
    Bounded mmsg lens ↔ mmsg = false ∨ ∀ i < 32, 65536 ≤ lens i := by
  refine ⟨fun h => ?_, fun h rs s hs hb hf t u ht hu => ?_⟩
  · by_contra hno
    simp only [not_or, Bool.not_eq_false, not_forall, Nat.not_le] at hno
    obtain ⟨rfl, j, hj, hl⟩ := hno
    obtain ⟨u, c, hu, hc⟩ := rounds_idle (s := { receiving with count := some 32 }) (n := 32) (i := 0) hlen rfl rfl rfl
      (.inr ⟨by decide, j, by omega, by omega, hl⟩)
    have := h _ receiving rfl (fun _ => rfl) (fun i => idleRound_fits _) _ u rfl hu
    rw [hc] at this
    cases this
  · unfold enter at ht
    split at ht
    · cases ht
      refine rounds_end (n := 32) (i := 0) hf (h.imp_right fun h j hj => h j (by omega)) (fun c hc => ?_) hu
      cases hc
      exact ⟨by decide, by decide⟩
    · cases ht

theorem recvmsg_bounded_64k : Bounded true fun _ => 65536 :=
  (recvmsg_bounded_iff true fun _ => by decide).2 (.inr fun _ _ => Nat.le_refl _)

/-- With buffers of 1 KiB it does not end at all. -/
theorem recvmsg_endless : ∃ rs : ℕ → Round, (∀ i, (rs i).buf = some 1024 ∧ (rs i).answer.Fits true 1024) ∧
    ∃ s, enter receiving = some s ∧ ∀ n, ∃ t c, rounds true rs n 0 s = some t ∧ t.count = some c := by
  refine ⟨fun _ => idleRound 1024, fun _ => ⟨rfl, idleRound_fits 1024⟩, _, rfl, fun n => ?_⟩
  suffices h : ∀ i, ∀ s : State, s.handle = receiving.handle → s.count = some 32 →
      ∃ t, rounds true (fun _ => idleRound 1024) n i s = some t ∧ t.count = some 32 by
    obtain ⟨t, ht, hc⟩ := h 0 { receiving with count := some 32 } rfl rfl
    exact ⟨t, 32, ht, hc⟩
  induction n with
  | zero => exact fun i s _ hc => ⟨s, rfl, hc⟩
  | succ n ih =>
    intro i s hh hc
    obtain ⟨t, ht, hth, htc⟩ := @round_idle 32 s 1024 (by decide) (hh ▸ rfl) (hh ▸ rfl) (by decide)
    obtain ⟨u, hu, huc⟩ := ih (i + 1) t (hth.trans hh) htc
    refine ⟨u, ?_, huc⟩
    unfold rounds
    rw [hc]
    simp [ht, hu]

/-! ## Buffers and datagrams -/

namespace Event

/-- A buffer handed back, in `recvmmsg` mode with `UV_UDP_MMSG_FREE` or with nothing received. -/
def handedBack : Event → Option ℕ
  | .recvCb c => if c.chunk.isNone then some c.buf else none
  | _ => none

def taken : Event → List Datagram
  | .received ds => ds
  | _ => []

def passed : Event → Option Datagram
  | .recvCb c => c.datagram
  | _ => none

end Event

/-- The buffers handed back, the datagrams the kernel has given, and those that `recv_cb` was given. -/
def handedBack (log : List Event) : List ℕ := log.filterMap Event.handedBack
def taken (log : List Event) : List Datagram := log.flatMap Event.taken
def passed (log : List Event) : List Datagram := log.filterMap Event.passed

/-- Between two rounds: every buffer has been handed back once, and every datagram passed on. -/
def Kept (s : State) : Prop := handedBack s.log = List.range s.allocs ∧ passed s.log = taken s.log

/-- None of `n` callbacks from the `k`-th on leaves the handle stopped. -/
def NeverStopped (cbs : ℕ → List Call) : ℕ → ℕ → Handle → Prop
  | 0, _, _ => True
  | n + 1, k, h => ∀ h', h.calls (cbs k) = some h' → h'.recvCb = true ∧ NeverStopped cbs n (k + 1) h'

/-- The datagrams that a round takes in one call of `recvmmsg`. -/
def Round.batch (mmsg : Bool) (r : Round) : ℕ :=
  match mmsg, r.buf, r.answer with
  | true, some (_ + 1), .received ds => ds.length
  | _, _, _ => 0

def Action.Steady (mmsg : Bool) (h : Handle) : Action → Prop
  | .round r => NeverStopped r.cbs (r.batch mmsg) 0 h
  | _ => True

/-- No callback for a chunk of a batch leaves the handle stopped. -/
def Steady (mmsg : Bool) : List Action → State → Prop
  | [], _ => True
  | a :: as, s => a.Steady mmsg s.handle ∧ ∀ t, step mmsg s a = some t → Steady mmsg as t

section Kept
variable {mmsg : Bool} {r : Round} {count : ℤ} {s t : State} {cbs : ℕ → List Call}

/-- What a round adds: `n` buffers of number `i` handed back, `ds` taken and `ps` passed. -/
structure Adds (i : ℕ) (back : Bool) (ds ps : List Datagram) (s t : State) : Prop where
  allocs : t.allocs = s.allocs
  handedBack : UdpRecv.handedBack t.log = UdpRecv.handedBack s.log ++ if back then [i] else []
  taken : UdpRecv.taken t.log = UdpRecv.taken s.log ++ ds
  passed : UdpRecv.passed t.log = UdpRecv.passed s.log ++ ps

namespace Adds
variable {i : ℕ} {b b' : Bool} {ds ds' ps ps' : List Datagram} {u : State}

theorem trans (h : Adds i false ds ps s t) (h' : Adds i b ds' ps' t u) : Adds i b (ds ++ ds') (ps ++ ps') s u := by
  refine ⟨h'.allocs.trans h.allocs, ?_, ?_, ?_⟩
  · rw [h'.handedBack, h.handedBack, if_neg Bool.false_ne_true, append_nil]
  · rw [h'.taken, h.taken, append_assoc]
  · rw [h'.passed, h.passed, append_assoc]

theorem refl (i : ℕ) (s : State) : Adds i false [] [] s s := ⟨rfl, by simp, by simp, by simp⟩

theorem received (i : ℕ) (ds : List Datagram) (s : State) : Adds i false ds [] s (s.emit (.received ds)) := by
  refine ⟨rfl, ?_, ?_, ?_⟩ <;> simp [State.emit, UdpRecv.handedBack, UdpRecv.taken, UdpRecv.passed, Event.handedBack,
    Event.taken, Event.passed]

end Adds

theorem callback_spec {c : Callback} {cs : List Call} (h : s.callback c cs = some t) :
    s.handle.calls cs = some t.handle ∧ t.count = s.count ∧ Adds c.buf c.chunk.isNone [] c.datagram.toList s t := by
  unfold State.callback at h
  split at h
  · obtain ⟨h', hh, rfl⟩ := map_eq_some_iff.1 h
    refine ⟨hh, rfl, rfl, ?_, ?_, ?_⟩
    · cases hc : c.chunk.isNone <;> simp [State.emit, handedBack, Event.handedBack, hc]
    · simp [State.emit, taken, Event.taken]
    · cases hd : c.datagram <;> simp [State.emit, passed, Event.passed, hd]
  · cases h

theorem chunkLoop_spec {i k : ℕ} {ds : List Datagram} (hr : s.handle.recvCb = true) (h : chunkLoop i cbs ds k s = some t) :
    (∃ ps, Adds i false [] ps s t ∧ (NeverStopped cbs ds.length k s.handle → ps = ds)) ∧
      (NeverStopped cbs ds.length k s.handle ↔ t.handle.recvCb = true) := by
  induction ds generalizing k s with
  | nil =>
    cases h
    exact ⟨⟨[], Adds.refl i t, fun _ => rfl⟩, ⟨fun _ => hr, fun _ => trivial⟩⟩
  | cons d ds ih =>
    unfold chunkLoop at h
    rw [if_pos hr] at h
    obtain ⟨u, hu, h⟩ := bind_eq_some_iff.1 h
    obtain ⟨hcalls, -, hadds⟩ := callback_spec hu
    have hkeep : NeverStopped cbs (d :: ds).length k s.handle ↔
        u.handle.recvCb = true ∧ NeverStopped cbs ds.length (k + 1) u.handle :=
      ⟨fun hn => hn _ hcalls, fun hn h' hh => by
        cases hcalls.symm.trans hh
        exact hn⟩
    rw [hkeep]
    cases hur : u.handle.recvCb with
    | true =>
      obtain ⟨⟨ps, hps, hall⟩, hiff⟩ := ih hur h
      refine ⟨⟨_, hadds.trans hps, fun hn => ?_⟩, by simpa using hiff⟩
      rw [hall hn.2]
      rfl
    | false =>
      -- the loop ends here
      have hut : u = t := by
        cases ds with
        | nil => exact some.inj h
        | cons d' ds =>
          unfold chunkLoop at h
          rw [hur] at h
          exact some.inj h
      subst hut
      exact ⟨⟨_, hadds, fun hn => absurd hn.1 Bool.false_ne_true⟩, by simp [hur]⟩

/-- What a call of `recvmmsg` or `recvmsg` leads to: the buffer is handed back, with every datagram passed on, or a callback
for a chunk has left the handle stopped. -/
structure Received (mmsg : Bool) (r : Round) (i : ℕ) (s t : State) : Prop where
  adds : ∃ b ds ps, Adds i b ds ps s t ∧ (b = true ↔ NeverStopped r.cbs (r.batch mmsg) 0 s.handle) ∧ (b = true → ps = ds)

theorem Received.one {i : ℕ} {c : Callback} {cs : List Call} {ds : List Datagram} {u : State} (hb : r.batch mmsg = 0)
    (hs : Adds i false ds [] s u) (hd : c.datagram.toList = ds) (hi : c.buf = i) (hc : c.chunk = none)
    (h : u.callback c cs = some t) : Received mmsg r i s t := by
  obtain ⟨-, -, hadds⟩ := callback_spec h
  rw [hc, hi, hd] at hadds
  refine ⟨true, _, _, hs.trans hadds, ?_, fun _ => by simp⟩
  rw [hb]
  exact ⟨fun _ => trivial, fun _ => rfl⟩

theorem udpRecvmmsg_spec {i n : ℕ} {p : State × ℤ} (hr : s.handle.recvCb = true) (hb : r.buf = some (n + 1))
    (h : udpRecvmmsg i r s = some p) : Received true r i s p.1 := by
  unfold udpRecvmmsg at h
  split at h
  · next ha =>
    obtain ⟨u, hu, rfl⟩ := map_eq_some_iff.1 h
    exact .one (by simp [Round.batch, hb, ha]) (.refl i s) rfl rfl rfl hu
  · next ha =>
    obtain ⟨u, hu, rfl⟩ := map_eq_some_iff.1 h
    exact .one (by simp [Round.batch, hb, ha]) (.refl i s) rfl rfl rfl hu
  · next ha =>
    obtain ⟨u, hu, rfl⟩ := map_eq_some_iff.1 h
    exact .one (by simp [Round.batch, hb, ha]) (.refl i s) rfl rfl rfl hu
  · next ds _ ha =>
    have hbatch : r.batch true = ds.length := by simp [Round.batch, hb, ha]
    obtain ⟨u, hu, h⟩ := bind_eq_some_iff.1 h
    obtain ⟨⟨ps, hps, hall⟩, hiff⟩ := chunkLoop_spec (s := s.emit (.received ds)) hr hu
    have hadds := (Adds.received i ds s).trans hps
    split at h
    · next hur =>
      obtain ⟨v, hv, rfl⟩ := map_eq_some_iff.1 h
      obtain ⟨-, -, hlast⟩ := callback_spec hv
      have hn := hiff.2 hur
      refine ⟨true, _, _, hadds.trans hlast, ?_, fun _ => by simp [hall hn]⟩
      rw [hbatch]
      exact ⟨fun _ => hn, fun _ => rfl⟩
    · next hur =>
      cases h
      refine ⟨false, _, _, hadds, ?_, fun h => absurd h Bool.false_ne_true⟩
      rw [hbatch]
      exact ⟨fun h => absurd h Bool.false_ne_true, fun hn => absurd (hiff.1 hn) hur⟩

theorem udpRecvOne_spec {i : ℕ} {p : State × ℤ} (h : udpRecvOne i r s = some p) : Received false r i s p.1 := by
  have hb : r.batch false = 0 := rfl
  unfold udpRecvOne at h
  split at h
  · obtain ⟨u, hu, rfl⟩ := map_eq_some_iff.1 h
    exact .one hb (.refl i s) rfl rfl rfl hu
  · obtain ⟨u, hu, rfl⟩ := map_eq_some_iff.1 h
    exact .one hb (.refl i s) rfl rfl rfl hu
  · next d _ =>
    obtain ⟨u, hu, rfl⟩ := map_eq_some_iff.1 h
    exact .one hb (.received i [d] s) rfl rfl rfl hu
  · cases h

/-- `round` once the buffer is there. -/
def State.allocated (s : State) : State := { s.emit (.alloc s.allocs) with allocs := s.allocs + 1 }

theorem Received.next {i : ℕ} {nread c : ℤ} (h : Received mmsg r i s t) : Received mmsg r i s (t.next nread c) := by
  obtain ⟨b, ds, ps, hadds, hb, hp⟩ := h.adds
  exact ⟨b, ds, ps, ⟨hadds.allocs, hadds.handedBack, hadds.taken, hadds.passed⟩, hb, hp⟩

theorem round_spec (hr : s.handle.recvCb = true) (h : round mmsg r count s = some t) :
    Received mmsg r s.allocs s.allocated t ∧ (t.count.isSome = true → t.handle.recvCb = true) := by
  have hnext : ∀ {u : State} {nread c : ℤ}, (u.next nread c).count.isSome = true → (u.next nread c).handle.recvCb = true := by
    intro u nread c hc
    obtain ⟨d, hd⟩ := isSome_iff_exists.1 hc
    exact (State.next_count hd).2.2.2.2
  have hnone : ∀ {u : State}, r.batch mmsg = 0 → s.allocated.callback ⟨ENOBUFS, s.allocs, none, none, 0⟩ (r.cbs 0) = some u →
      Received mmsg r s.allocs s.allocated { u with count := none } := by
    intro u hb hu
    obtain ⟨b, ds, ps, hadds, h1, h2⟩ := (Received.one hb (.refl _ _) rfl rfl rfl hu).adds
    exact ⟨b, ds, ps, ⟨hadds.allocs, hadds.handedBack, hadds.taken, hadds.passed⟩, h1, h2⟩
  unfold round at h
  split at h
  · next hbuf =>
    obtain ⟨u, hu, rfl⟩ := map_eq_some_iff.1 h
    exact ⟨hnone (by unfold Round.batch; rw [hbuf]; cases mmsg <;> rfl) hu, fun h => by cases h⟩
  · next hbuf =>
    obtain ⟨u, hu, rfl⟩ := map_eq_some_iff.1 h
    exact ⟨hnone (by unfold Round.batch; rw [hbuf]; cases mmsg <;> rfl) hu, fun h => by cases h⟩
  · next len hne hbuf =>
    obtain ⟨n, rfl⟩ : ∃ n, len = n + 1 := ⟨len - 1, by
      have : len ≠ 0 := fun h => hne (h ▸ rfl)
      omega⟩
    split at h
    · next hm =>
      subst hm
      obtain ⟨p, hp, rfl⟩ := map_eq_some_iff.1 h
      exact ⟨(udpRecvmmsg_spec (s := s.allocated) hr hbuf hp).next, hnext⟩
    · next hm =>
      obtain rfl : mmsg = false := by simpa using hm
      obtain ⟨p, hp, rfl⟩ := map_eq_some_iff.1 h
      exact ⟨(udpRecvOne_spec (s := s.allocated) hp).next, hnext⟩

def Lost (s : State) : Prop := ∃ i < s.allocs, i ∉ handedBack s.log

theorem Lost.not_kept (h : Lost s) : ¬ Kept s := fun hk => by
  obtain ⟨i, hi, hn⟩ := h
  rw [hk.1] at hn
  exact hn (mem_range.2 hi)

theorem Received.kept (h : Received mmsg r s.allocs s.allocated t) :
    (NeverStopped r.cbs (r.batch mmsg) 0 s.handle → Kept s → Kept t) ∧
      (¬ NeverStopped r.cbs (r.batch mmsg) 0 s.handle → Lost s ∨ Kept s → Lost t) ∧ (Lost s → Lost t) := by
  obtain ⟨b, ds, ps, hadds, hb, hp⟩ := h.adds
  have ha : t.allocs = s.allocs + 1 := hadds.allocs
  have hback : handedBack t.log = handedBack s.log ++ if b then [s.allocs] else [] := by
    rw [hadds.handedBack]
    simp [State.allocated, State.emit, handedBack, Event.handedBack]
  have htaken : taken t.log = taken s.log ++ ds := by
    rw [hadds.taken]
    simp [State.allocated, State.emit, taken, Event.taken]
  have hpassed : passed t.log = passed s.log ++ ps := by
    rw [hadds.passed]
    simp [State.allocated, State.emit, passed, Event.passed]
  have hlost : Lost s → Lost t := fun hl => by
    obtain ⟨i, hi, hn⟩ := hl
    refine ⟨i, by omega, fun hm => ?_⟩
    rw [hback, mem_append] at hm
    obtain hm | hm := hm
    · exact hn hm
    · split at hm
      · have := mem_singleton.1 hm
        omega
      · cases hm
  refine ⟨fun hn hk => ?_, fun hn hor => ?_, hlost⟩
  · have hbt := hb.2 hn
    refine ⟨?_, ?_⟩
    · rw [hback, hk.1, ha, range_succ, hbt, if_pos rfl]
    · rw [htaken, hpassed, hk.2, hp hbt]
  · obtain hl | hk := hor
    · exact hlost hl
    · have hbf : b = false := Bool.eq_false_iff.2 fun h => hn (hb.1 h)
      refine ⟨s.allocs, by omega, ?_⟩
      rw [hback, hk.1, hbf, if_neg Bool.false_ne_true, append_nil]
      exact not_mem_range_self

/-- A round only runs with `recv_cb` there. -/
def Running (s : State) : Prop := s.count.isSome = true → s.handle.recvCb = true

theorem step_spec {a : Action} (hs : Running s) (h : step mmsg s a = some t) :
    Running t ∧ (a.Steady mmsg s.handle → Kept s → Kept t) ∧ (¬ a.Steady mmsg s.handle → Lost s ∨ Kept s → Lost t) ∧
      (Lost s → Lost t) := by
  cases a with
  | call c =>
    unfold step at h
    dsimp only at h
    split at h
    · next hc =>
      obtain ⟨u, -, rfl⟩ := map_eq_some_iff.1 h
      exact ⟨fun h => by simp [hc.1] at h, fun _ => id, fun hn => absurd trivial hn, id⟩
    · cases h
  | poll =>
    unfold step enter at h
    dsimp only at h
    split at h
    · split at h
      · next hr =>
        cases h
        exact ⟨fun _ => hr, fun _ => id, fun hn => absurd trivial hn, id⟩
      · cases h
    · cases h
  | round r =>
    obtain ⟨count, hc, h⟩ := bind_eq_some_iff.1 h
    obtain ⟨hrec, hrun⟩ := round_spec (hs (by rw [hc]; rfl)) h
    obtain ⟨h1, h2, h3⟩ := hrec.kept
    exact ⟨hrun, h1, h2, h3⟩

theorem run_lost {as : List Action} (hs : Running s) (hl : Lost s) (h : run mmsg as s = some t) : Lost t := by
  induction as generalizing s with
  | nil => cases h; exact hl
  | cons a as ih =>
    obtain ⟨u, hu, h⟩ := bind_eq_some_iff.1 h
    obtain ⟨hrun, -, -, hlost⟩ := step_spec hs hu
    exact ih hrun (hlost hl) h

theorem run_kept_iff {as : List Action} (hs : Running s) (hk : Kept s) (h : run mmsg as s = some t) :
    Kept t ↔ Steady mmsg as s := by
  induction as generalizing s with
  | nil => cases h; exact ⟨fun _ => trivial, fun _ => hk⟩
  | cons a as ih =>
    obtain ⟨u, hu, h⟩ := bind_eq_some_iff.1 h
    obtain ⟨hrun, hkept, hlost, -⟩ := step_spec hs hu
    by_cases ha : a.Steady mmsg s.handle
    · rw [ih hrun (hkept ha hk) h]
      refine ⟨fun hst => ⟨ha, fun v hv => ?_⟩, fun hst => hst.2 u hu⟩
      cases hu.symm.trans hv
      exact hst
    · exact ⟨fun hkt => absurd hkt (run_lost hrun (hlost ha (.inr hk)) h).not_kept, fun hst => absurd hst.1 ha⟩

end Kept

/-- Every run hands each buffer back once and passes every datagram on, exactly when no callback for a chunk of a batch leaves
the handle stopped. -/
theorem kept_iff {mmsg fd : Bool} {as : List Action} {s : State} (h : run mmsg as (init fd) = some s) :
    Kept s ↔ Steady mmsg as (init fd) :=
  run_kept_iff (fun h => by cases h) ⟨rfl, rfl⟩ h

/-- `uv_udp_recv_stop` in the first of two callbacks for chunks. -/
theorem recvStop_loses : ∃ as s, run true as (init true) = some s ∧ s.count = none ∧ s.allocs = 1 ∧ handedBack s.log = [] ∧
    (taken s.log).length = 2 ∧ (passed s.log).length = 1 :=
  ⟨[.call (.recvStart true), .poll, .round ⟨some 131072, .received [⟨[1], false⟩, ⟨[2], false⟩], fun _ => [.recvStop]⟩], _, rfl,
    by decide⟩

/-- The callback for the first of two chunks stops the handle and starts it again. -/
def restarting : List Action := [.call (.recvStart true), .poll, .round ⟨some 131072, .received [⟨[1], false⟩, ⟨[2], false⟩],
  fun k => if k = 0 then [.recvStop, .recvStart false] else []⟩]

theorem kept_iff_restarting : ∃ s, run true restarting (init true) = some s ∧ handedBack s.log = [0] ∧
    (passed s.log).length = 2 ∧ Kept s := by
  refine ⟨_, rfl, by decide, by decide, (@kept_iff true true restarting _ rfl).2 ⟨trivial, ?_⟩⟩
  rintro s ⟨⟩
  refine ⟨trivial, ?_⟩
  rintro s ⟨⟩
  refine ⟨?_, fun _ _ => trivial⟩
  rintro h ⟨⟩
  refine ⟨rfl, ?_⟩
  rintro h ⟨⟩
  exact ⟨rfl, trivial⟩

end Libuv.L3.UdpRecv
