import Libuv.L3Stream.UdpQueue

/-!
# UDP handles: close

`recv_cb` may close the handle between the reading and the writing of one `uv__udp_io`, and `alloc_cb` before `recvmsg`.

* `udp_close`: in a run in which neither goes on to the socket, no system call is made after `uv_close`, the watcher is in
  no pending queue, and the requests that were queued are canceled by `uv__udp_finish_close`, each once.
-/
namespace Libuv.L3.Udp

/-- `uv__udp_finish_close` has begun. -/
def Pc.finishing : Pc → Bool
  | .completing f | .calling f => f
  | .closed => true
  | _ => false

/-- A closing handle has no request left when `uv__udp_io` comes to `POLLOUT`; an `alloc_cb` that closes the handle returns no
buffer. -/
def KeepsSocket (s : State) : Label → Prop
  | .recvmsg gotBuf _ => gotBuf = true → s.closing = false
  | .received _ => ∀ last, s.pc = .recv true last → s.closing = true → s.writeQueue = []
  | _ => True

def canceled (rs : List Req) : List (Req × Status) := rs.map fun req => (req, .err ECANCELED)

/-- After `uv_close`. -/
structure Closing (s : State) : Prop where
  node : s.node ≠ .linked
  events : s.pollin = false ∧ s.pollout = false
  waiting : s.pc.finishing = false → s.writeQueue = s.atClose
  finishing : s.pc.finishing = true → s.writeQueue = [] ∧ ∃ d, s.done ++ s.writeCompletedQueue = d ++ canceled s.atClose
  closed : s.pc = .closed → s.writeCompletedQueue = []

structure Closes (s : State) : Prop where
  calls : s.badCalls = 0
  finishing : s.pc.finishing = true → s.closing = true
  closing : s.closing = true → Closing s

section Close
variable {s t : State} {k : Kernel} {bufs : List ℕ} {cb err mmsg f : Bool} {l : Label}

theorem Closes.of_open (hb : t.badCalls = 0) (ho : t.closing = false) (hf : t.pc.finishing = false) : Closes t where
  calls := hb
  finishing h := by
    rw [hf] at h
    cases h
  closing h := by
    rw [ho] at h
    cases h

theorem Closes.open_pc (hs : Closes s) (ho : s.closing = false) : s.pc.finishing = false := by
  cases hf : s.pc.finishing with
  | false => rfl
  | true =>
    rw [hs.finishing hf] at ho
    cases ho

theorem writable_open (hs : Closes s) (ho : s.closing = false) (h : writable s mmsg k = some t) : Closes t := by
  obtain ⟨-, rfl⟩ := runCompleted_eq h
  have ht := (sendmsg_transmits s mmsg k).1
  exact .of_open ((ht.calls ho).trans hs.calls) (ht.closing.trans ho) rfl

theorem closes_send (hs : Closes s) (ho : s.closing = false) : Closes (send s mmsg bufs cb err k) := by
  cases err with
  | true => exact hs
  | false =>
    have ht := (sendmsg_transmits (enqueue s bufs cb) mmsg k).1
    have hb := (ht.calls ho).trans hs.calls
    have hclosing := ht.closing.trans ho
    have hpc : (sendmsg (enqueue s bufs cb) mmsg k).pc.finishing = false := by
      rw [ht.frame.get State.pc]
      exact hs.open_pc ho
    rw [send_eq]
    dsimp only
    split_ifs
    · exact .of_open hb hclosing hpc
    · exact .of_open hb hclosing hpc
    · exact .of_open hs.calls ho (hs.open_pc ho)

theorem closes_trySend (hs : Closes s) (ho : s.closing = false) : Closes (trySend s bufs err k) := by
  unfold trySend
  split_ifs
  · exact hs
  · exact hs
  · have e : call { s with next := s.next + 1 } = { s with next := s.next + 1 } := call_open _ ho
    simp only [e]
    split <;> exact .of_open hs.calls ho (hs.open_pc ho)

theorem closes_close (hs : Closes s) (ho : s.closing = false) : Closes (close s) where
  calls := hs.calls
  finishing _ := rfl
  closing _ := by
    have hpc : (close s).pc.finishing = false := hs.open_pc ho
    constructor
    · unfold close
      split_ifs with h
      · nofun
      · exact h
    · exact ⟨rfl, rfl⟩
    · exact fun _ => rfl
    · intro h
      rw [hpc] at h
      cases h
    · intro h
      rw [h] at hpc
      cases hpc

theorem Closes.setPc (hs : Closes s) {pc : Pc} {b : Bool} (h0 : s.pc.finishing = false) (hf : pc.finishing = false) :
    Closes { s with processing := b, pc := pc } where
  calls := hs.calls
  finishing h := by
    rw [hf] at h
    cases h
  closing h := by
    have hc := hs.closing h
    refine ⟨hc.node, hc.events, fun _ => hc.waiting h0, fun h' => ?_, fun h' => ?_⟩
    · rw [hf] at h'
      cases h'
    · simp only at h'
      rw [h'] at hf
      cases hf

theorem closes_received (hs : Closes s) {last : Bool} (hpc : s.pc = .recv true last) (hc : s.closing = true → s.writeQueue = [])
    (h : writable s mmsg k = some t) : Closes t := by
  by_cases ho : s.closing = true
  · obtain ⟨-, rfl⟩ := runCompleted_eq h
    rw [sendmsg_empty (hc ho)]
    have h0 : s.pc.finishing = false := by rw [hpc]; rfl
    exact hs.setPc h0 rfl
  · exact writable_open hs (Bool.not_eq_true _ ▸ ho) h

theorem completeNext_nil (hc : s.writeCompletedQueue = []) :
    let t := completeNext s f
    (t.badCalls = s.badCalls ∧ t.closing = s.closing ∧ t.node = s.node ∧ t.pollin = s.pollin ∧
      (t.pollout = s.pollout ∨ t.pollout = false)) ∧
      (t.writeQueue = s.writeQueue ∧ t.writeCompletedQueue = [] ∧ t.atClose = s.atClose ∧ t.done = s.done) ∧
      t.pc = if f then .closed else .idle := by
  unfold completeNext
  rw [hc]
  dsimp only
  split_ifs <;> simp_all

theorem closes_next (hs : Closes s) (hpc : s.pc = .completing f) : Closes (completeNext s f) := by
  have hfin : s.pc.finishing = f := by rw [hpc]; rfl
  cases hc : s.writeCompletedQueue with
  | cons c rest =>
    have hpc' : (completeNext s f).pc.finishing = f ∧ (completeNext s f).pc ≠ .closed := by
      simp only [completeNext, hc]
      cases c.1.sendCb <;> simp [Pc.finishing]
    have hfields : (completeNext s f).done ++ (completeNext s f).writeCompletedQueue = s.done ++ s.writeCompletedQueue ∧
        (completeNext s f).closing = s.closing ∧ (completeNext s f).badCalls = s.badCalls := by
      unfold completeNext
      rw [hc]
      simp
    refine ⟨hfields.2.2.trans hs.calls, fun h => ?_, fun h => ?_⟩
    · rw [hpc'.1] at h
      exact hfields.2.1.trans (hs.finishing (hfin.trans h))
    · have hcl := hs.closing (hfields.2.1.symm.trans h)
      constructor
      · unfold completeNext
        rw [hc]
        exact hcl.node
      · unfold completeNext
        rw [hc]
        exact hcl.events
      · intro hf
        rw [hpc'.1] at hf
        unfold completeNext
        rw [hc]
        exact hcl.waiting (hfin.trans hf)
      · intro hf
        rw [hpc'.1] at hf
        rw [hfields.1]
        have hold := hcl.finishing (hfin.trans hf)
        unfold completeNext
        rw [hc] at hold ⊢
        exact hold
      · exact fun h => absurd h hpc'.2
  | nil =>
    obtain ⟨⟨hb, hclosing, hnode, hin, hout⟩, ⟨hw, hcq, hat, hdone⟩, hpc'⟩ := completeNext_nil (s := s) (f := f) hc
    have hfin' : (completeNext s f).pc.finishing = f := by
      rw [hpc']
      cases f <;> rfl
    refine ⟨hb.trans hs.calls, fun h => ?_, fun h => ?_⟩
    · rw [hfin'] at h
      exact hclosing.trans (hs.finishing (hfin.trans h))
    · have hcl := hs.closing (hclosing.symm.trans h)
      constructor
      · rw [hnode]
        exact hcl.node
      · refine ⟨hin.trans hcl.events.1, ?_⟩
        rcases hout with e | e
        · exact e.trans hcl.events.2
        · exact e
      · intro hf
        rw [hfin'] at hf
        rw [hw, hat]
        exact hcl.waiting (hfin.trans hf)
      · intro hf
        rw [hfin'] at hf
        rw [hw, hdone, hcq, hat]
        rw [← hc]
        exact hcl.finishing (hfin.trans hf)
      · exact fun _ => hcq

theorem closes_finishClose (hs : Closes s) (h0 : s.pc = .idle) (ho : s.closing = true) (h : finishClose s = some t) : Closes t := by
  unfold finishClose at h
  split_ifs at h
  obtain ⟨-, rfl⟩ := runCompleted_eq h
  have hcl := hs.closing ho
  refine ⟨hs.calls, fun _ => ho, fun _ => ⟨hcl.node, hcl.events, nofun, fun _ => ⟨rfl, s.done ++ s.writeCompletedQueue, ?_⟩, nofun⟩⟩
  rw [← hcl.waiting (by rw [h0]; rfl)]
  exact (List.append_assoc ..).symm

theorem closes_step (hs : Closes s) (hc : KeepsSocket s l) (h : Stepped mmsg s l t) : Closes t := by
  cases h with
  | send own => exact closes_send hs own.1
  | trySend own => exact closes_trySend hs own.1
  | watch own => exact .of_open hs.calls own.1 (hs.open_pc own.1)
  | close own => exact closes_close hs own.1
  | alloc _ ho => exact .of_open hs.calls ho rfl
  | writable ho h => exact writable_open hs ho h
  | stays => exact hs
  | pending linked h =>
    have ho : s.closing = false := by
      cases hcl : s.closing with
      | false => rfl
      | true => exact absurd linked (hs.closing hcl).node
    exact writable_open (s := { s with node := .out }) (.of_open hs.calls ho (hs.open_pc ho)) ho h
  | recvmsg last hpc =>
    rw [call_open s (hc rfl)]
    exact hs.setPc (by rw [hpc]; rfl) rfl
  | noBuf hpc | again hpc | done hpc => exact hs.setPc (by rw [hpc]; rfl) rfl
  | @received _ last _ hpc h => exact closes_received hs hpc (hc last hpc) h
  | next hpc => exact closes_next hs hpc
  | @ret f hpc =>
    have hfin : s.pc.finishing = f := by rw [hpc]; rfl
    refine ⟨hs.calls, fun h => hs.finishing (hfin.trans h), fun h => ?_⟩
    have hcl := hs.closing h
    exact ⟨hcl.node, hcl.events, fun h => hcl.waiting (hfin.trans h), fun h => hcl.finishing (hfin.trans h), fun e => by cases e⟩
  | finishClose idle closing h => exact closes_finishClose hs idle closing h

/-- **Close.** In a run in which a handle that is closed while it reads has nothing left to write, and no `alloc_cb` that closes the
handle returns a buffer: no system call is made on the socket after `uv_close`; the watcher of a closing handle is in no
pending queue; until `uv__udp_finish_close` the queue is as `uv_close` found it; and when the handle is closed the requests
that were in it are the last that were completed, with `UV_ECANCELED`, and each request was completed once. -/
theorem udp_close (h : ((system mmsg).restrict KeepsSocket).Reachable s) :
    s.badCalls = 0 ∧ (s.closing = true → s.node ≠ .linked) ∧
    (s.closing = true → s.pc.finishing = false → s.writeQueue = s.atClose) ∧
    (s.pc = .closed → s.writeQueue = [] ∧ (∃ d, s.done = d ++ canceled s.atClose) ∧ (s.done.map fun c => c.1.seq).Nodup) := by
  have hinv : ((system mmsg).restrict KeepsSocket).Inductive fun s => (Counts s ∧ (s.closing = false → Armed s)) ∧ Closes s := by
    apply (send_queue_inv.restrict _).with_
    · intro s hs
      cases hs
      exact .of_open rfl rfl rfl
    · intro s l t _ hs ht
      exact closes_step hs ht.1 (step_cases ht.2.2)
  obtain ⟨⟨hcounts, -⟩, hs⟩ := hinv.reachable h
  refine ⟨hs.calls, fun hc => (hs.closing hc).node, fun hc => (hs.closing hc).waiting, fun hpc => ?_⟩
  have hfin : s.pc.finishing = true := by rw [hpc]; rfl
  have hcl := hs.closing (hs.finishing hfin)
  obtain ⟨hw, d, hd⟩ := hcl.finishing hfin
  have hc := hcl.closed hpc
  refine ⟨hw, ⟨d, ?_⟩, ?_⟩
  · rw [← hd, hc, List.append_nil]
  · have hsorted := hcounts.sorted
    rw [← hcounts.order, queued, hc, hw, List.map_nil, List.append_nil, List.append_nil, List.map_map] at hsorted
    exact hsorted.imp Nat.ne_of_lt

/-- A request waits for the kernel; the handle is closed in its `recv_cb`, of an event without `POLLOUT`. -/
theorem udp_close_reading : ∃ s : State, s.pc = .closed ∧ s.atClose = [⟨0, [5], true⟩] ∧ s.badCalls = 0 ∧
    ∃ d, s.done = d ++ canceled s.atClose := by
  have h0 : ((system true).restrict KeepsSocket).Reachable State.fresh := .init rfl
  have h1 := h0.step (l := Label.recvStart) ⟨trivial, trivial, rfl⟩
  have h2 := h1.step (l := Label.send [5] true false fun _ => .again) ⟨trivial, sane_again, rfl⟩
  have h3 := h2.step (l := Label.event true false fun _ => .again) ⟨trivial, sane_again, rfl⟩
  have h4 := h3.step (l := Label.recvmsg true false) ⟨fun _ => rfl, trivial, rfl⟩
  have h5 := h4.step (l := Label.close) ⟨trivial, trivial, rfl⟩
  have h6 := h5.step (l := Label.received fun _ => .again) ⟨fun _ h => (nomatch h), sane_again, rfl⟩
  have h7 := h6.step (l := Label.finishClose) ⟨trivial, trivial, rfl⟩
  have h8 := h7.step (l := Label.next) ⟨trivial, trivial, rfl⟩
  have h9 := h8.step (l := Label.ret) ⟨trivial, trivial, rfl⟩
  have h10 := h9.step (l := Label.next) ⟨trivial, trivial, rfl⟩
  obtain ⟨hb, -, -, hclosed⟩ := udp_close h10
  exact ⟨_, rfl, rfl, hb, (hclosed rfl).2.1⟩

/-- **A handle closed between the two parts of `uv__udp_io` is sent from.** `sendmsg` is called on descriptor -1, the request is
completed with `EBADF`, and the watcher of the closed handle is in the pending queue. -/
theorem udp_close_sends : ∃ s : State, (system true).Reachable s ∧ s.pc = .closed ∧ s.badCalls = 1 ∧ s.node = .linked ∧
    s.atClose = [⟨0, [5], true⟩] ∧ s.done = [(⟨0, [5], true⟩, .err EBADF)] := by
  have h0 : (system true).Reachable State.fresh := .init rfl
  have h1 := reachable_step (l := .recvStart) h0 trivial rfl
  have h2 := reachable_step (l := .send [5] true false fun _ => .again) h1 sane_again rfl
  have h3 := reachable_step (l := .event true true fun _ => .again) h2 sane_again rfl
  have h4 := reachable_step (l := .recvmsg true false) h3 trivial rfl
  have h5 := reachable_step (l := .close) h4 trivial rfl
  have h6 := reachable_step (l := .received fun _ => .again) h5 sane_again rfl
  have h7 := reachable_step (l := .next) h6 trivial rfl
  have h8 := reachable_step (l := .ret) h7 trivial rfl
  have h9 := reachable_step (l := .next) h8 trivial rfl
  have h10 := reachable_step (l := .finishClose) h9 trivial rfl
  have h11 := reachable_step (l := .next) h10 trivial rfl
  exact ⟨_, h11, rfl, rfl, rfl, rfl, rfl⟩

end Close

end Libuv.L3.Udp
