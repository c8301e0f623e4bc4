import Libuv.Core.Sat
import Libuv.L3Stream.Requests

/-!
# Rules for the stream's functions

One rule for each function that writes, runs callbacks, reads, opens or connects: what it may
change of the stream, what it does to the requests (`Micros`), and with which fault it may
end (`Bad`: one that the requests at hand, or those that steps of requests lead to, allow).

The loops that run callbacks and the chain of functions behind `uv__read` end in code that
their callers chose; their rules take what is wanted of that code as a premise.
-/
namespace Libuv.L3.Stream

open State (offered advance)

variable {T : Terms} {Q : State → Prop} {E : Fault → Prop}

/-! ## The requests of a state -/

namespace State

def reqs (s : State) (c d : Option ℕ) : Reqs where
  connect := c
  shutdown := d
  queue := s.writeQueue
  completed := s.writeCompletedQueue
  running := s.pq
  size := s.writeQueueSize
  active := s.activeReqs
  calls := s.calls
  sent := s.sent
  called := s.called

def connectId (s : State) : Option ℕ := s.connectReq.map (·.id)

def shutdownId (s : State) : Option ℕ := s.shutdownReq.map (·.id)

def all (s : State) : Reqs := s.reqs s.connectId s.shutdownId

/-- The requests whose callbacks have not started: `uv__stream_destroy` clears
`connect_req` and `shutdown_req` only after their callbacks. -/
def view (s : State) : Reqs :=
  s.reqs (if s.pc = .destroyConnectCb then none else s.connectId)
    (if s.pc = .destroyShutdownCb then none else s.shutdownId)

theorem view_eq_all {s : State} (h1 : s.pc ≠ .destroyConnectCb) (h2 : s.pc ≠ .destroyShutdownCb) :
    s.view = s.all := by
  unfold view all
  rw [if_neg h1, if_neg h2]

end State

/-! ## Steps of requests and faults -/

/-- A request has more left than `write_queue_size` says. -/
def Reqs.Short (r : Reqs) : Prop := ∃ q ∈ r.queue ++ r.completed ++ r.running, r.size < q.bytes.length

/-- What is known of the requests where an assertion about `write_queue_size` fails. -/
def Reqs.Fails (T : Terms) (r : Reqs) : Fault → Prop
  | .reqUpdate | .reqSize => r.Short
  | .destroySize => T.tidy → r.queue = [] ∧ r.completed = [] ∧ r.running = [] ∧ r.size ≠ 0
  | _ => True

def Bad (T : Terms) (r : Reqs) (e : Fault) : Prop :=
  ∃ r', Micros T r r' ∧ r'.Fails T e

variable {r r' : Reqs}

theorem Micros.refl : Micros T r r := Relation.ReflTransGen.refl

theorem Micros.one (h : Micro T r r') : Micros T r r' := .single h

theorem Micros.spill {more : List (ℕ × UInt8)} (h : T.narrow → more = []) : Micros T r { r with sent := r.sent ++ more } := by
  by_cases hn : T.narrow
  · rw [h hn, List.append_nil]
    exact .refl
  · exact .one (.spill hn)

theorem Micros.view {t : State} (h : Micros T r t.all) (h1 : t.pc ≠ .destroyConnectCb)
    (h2 : t.pc ≠ .destroyShutdownCb) : Micros T r t.view := by
  rw [State.view_eq_all h1 h2]
  exact h

theorem Bad.now {e : Fault} (h : r.Fails T e) : Bad T r e := ⟨r, .refl, h⟩

theorem Bad.after {e : Fault} (h : Micros T r r') (hb : Bad T r' e) : Bad T r e := by
  obtain ⟨r'', h', hf⟩ := hb
  exact ⟨r'', h.trans h', hf⟩

/-! ## The I/O watcher -/

namespace State
variable {s : State}

theorem ioFeed_pending : s.ioFeed.pending = if s.pending = .unlinked then .queued else s.pending := by
  unfold ioFeed
  split <;> rfl

theorem ioFeed_eq : s.ioFeed = { s with pending := s.ioFeed.pending } := by
  unfold ioFeed
  split <;> rfl

theorem ioStopOut_eq : s.ioStopOut = { s with pollout := s.ioStopOut.pollout } := by
  unfold ioStopOut
  split <;> rfl

theorem ioStopOut_pollout : s.ioStopOut.pollout = if s.fd = -1 then s.pollout else false := by
  unfold ioStopOut
  split <;> rfl

theorem ioStartOut_sat : Sat (fun t => t = { s with pollout := true }) (· = .crash) s.ioStartOut := by
  exact Sat.ite (fun _ => rfl) fun _ => rfl

end State

/-! ## Writing -/

/-- What `uv__write` may change, and that it does not leave the stream without a way on. -/
structure Wrote (s t : State) : Prop where
  frame : t = { s with
    writeQueue := t.writeQueue
    writeCompletedQueue := t.writeCompletedQueue
    writeQueueSize := t.writeQueueSize
    pollout := t.pollout
    pending := t.pending
    sent := t.sent }
  armed : t.writeQueue = [] ∧ t.pollout = s.pollout ∧ t.pending = s.pending ∨
    t.pollout = true ∧ t.pending = s.pending ∨ t.pending = s.ioFeed.pending

theorem Wrote.trans {s t u : State} (h1 : t = { s with
      writeQueue := t.writeQueue
      writeQueueSize := t.writeQueueSize
      sent := t.sent }) (h2 : Wrote t u) : Wrote s u := by
  obtain ⟨hf, ha⟩ := h2
  rw [State.ioFeed_pending] at ha
  rw [h1] at hf ha
  exact ⟨hf, by rw [State.ioFeed_pending]; exact ha⟩

namespace State
variable {s : State}

/-- The result counts a part of the bytes that were sent, which is all of them where the count fits. -/
theorem uvTryWrite_sat {id : ℕ} {bufs : List Buf} {o : Outcome} (ho : T.narrow → o.Narrow) :
    Sat (fun p => ∃ more, (T.narrow → more = []) ∧ ((∃ n : ℕ, n ≤ (offered T.iovmax bufs).length ∧
        p = ((n : ℤ), { s with sent := s.sent ++ ((offered T.iovmax bufs).take n).map (Prod.mk id) ++ more })) ∨
        p.1 < 0 ∧ p.2 = { s with sent := s.sent ++ more }))
      (· = .stuck) (s.uvTryWrite T.iovmax id bufs o) := by
  have hnone : ({ s with sent := s.sent ++ [] } : State) = s := by rw [List.append_nil]
  cases o with
  | wrote n =>
    refine Sat.ite (fun hn => ?_) fun _ => rfl
    have hle := CInt.ofNat_le n
    have hfits (h : T.narrow) : CInt.ofNat n = n := CInt.ofNat_of_lt (ho h n rfl)
    by_cases hneg : CInt.ofNat n < 0
    · refine ⟨((offered T.iovmax bufs).take n).map (Prod.mk id), fun h => ?_, .inr ⟨?_, rfl⟩⟩
      · have := hfits h
        omega
      · dsimp only
        exact hneg
    · obtain ⟨m, hm⟩ := Int.eq_ofNat_of_zero_le (not_lt.1 hneg)
      refine ⟨(((offered T.iovmax bufs).take n).drop m).map (Prod.mk id), fun h => ?_, .inl ⟨m, by omega, ?_⟩⟩
      · have := hfits h
        rw [List.drop_eq_nil_of_le (by rw [List.length_take]; omega), List.map_nil]
      · have hmin : min m n = m := by omega
        rw [hm, List.append_assoc, ← List.map_append, ← hmin, ← List.take_take, hmin, List.take_append_drop]
  | again => exact ⟨[], fun _ => rfl, .inr ⟨(by decide : UV_EAGAIN < 0), hnone.symm⟩⟩
  | error e => exact Sat.ite (fun h => ⟨[], fun _ => rfl, .inr ⟨h.1, hnone.symm⟩⟩) fun _ => rfl

theorem writeReqUpdate_sat {q : WriteReq} {n : ℕ} :
    Sat (fun p : Bool × WriteReq × State => ∃ bs k, advance n q.remaining = some (bs, k) ∧ n ≤ s.writeQueueSize ∧
        (p.1 = true ↔ (q.updated bs k).done) ∧
        p.2 = (q.updated bs k, { s with writeQueueSize := s.writeQueueSize - n }))
      (fun e => e = .reqUpdate ∧ s.writeQueueSize < n ∨ e = .crash)
      (s.writeReqUpdate { q with sendHandle := false } n) := by
  have hrem : ({ q with sendHandle := false } : WriteReq).remaining = q.remaining := rfl
  refine Sat.ite (fun h => .inl ⟨rfl, h⟩) fun h => ?_
  rw [hrem]
  cases ha : advance n q.remaining with
  | none => exact .inr rfl
  | some p => exact ⟨p.1, p.2, rfl, by omega, decide_eq_true_iff, rfl⟩

theorem writeReqFinish_eq (q : WriteReq) (rest : List WriteReq) : s.writeReqFinish q rest =
    { s with
      writeQueue := rest
      writeCompletedQueue := s.writeCompletedQueue ++ [q.finished]
      pending := s.ioFeed.pending } := by
  unfold writeReqFinish
  rw [ioFeed_eq, ioFeed_pending, ioFeed_pending]
  rfl

/-- **`uv__write`** takes bytes off the head of the queue, finishes it or fails it, and
leaves the stream watched or fed, unless there is nothing to write. -/
theorem uvWriteLoop_sat {c d : Option ℕ} {outs : List Outcome} (hd : ¬ T.dying) (ho : T.narrow → ∀ o ∈ outs, o.Narrow) :
    Sat (fun t => Wrote s t ∧ Micros T (s.reqs c d) (t.reqs c d)) (Bad T (s.reqs c d))
      (uvWriteLoop T.iovmax outs s) := by
  induction outs generalizing s with
  | nil =>
    unfold uvWriteLoop
    cases hq : s.writeQueue with
    | nil => exact ⟨⟨rfl, .inl ⟨hq, rfl, rfl⟩⟩, .refl⟩
    | cons req rest => exact Bad.now trivial
  | cons o outs ih =>
    unfold uvWriteLoop
    cases hq : s.writeQueue with
    | nil => exact ⟨⟨rfl, .inl ⟨hq, rfl, rfl⟩⟩, .refl⟩
    | cons req rest =>
      have hrest : T.narrow → ∀ o ∈ outs, o.Narrow := fun h x hx => ho h x (List.mem_cons_of_mem _ hx)
      refine Sat.bind ((uvTryWrite_sat fun h => ho h o List.mem_cons_self).mono (fun _ h => h) fun e he => he ▸ Bad.now trivial)
        fun p hp => ?_
      obtain ⟨more, hmore, ⟨n, hn, rfl⟩ | ⟨hneg, ht⟩⟩ := hp
      · simp only
        refine Sat.bind (writeReqUpdate_sat.mono (fun _ h => h) fun e he => ?_) fun p hp => ?_
        · rcases he with ⟨rfl, hlt⟩ | rfl
          · refine Bad.now ⟨req, ?_, lt_of_lt_of_le hlt (hn.trans (offered_length_le _ _))⟩
            simp [reqs, hq]
          · exact Bad.now trivial
        · obtain ⟨bs, k, ha, hs, hdone, he⟩ := hp
          obtain ⟨done, p⟩ := p
          cases he
          have hwrote : Micros T (s.reqs c d) _ := (Micros.one (.wrote (r := s.reqs c d) hq hn hs ha)).trans (Micros.spill hmore)
          simp only
          refine Sat.ite (fun h => ?_) fun _ => ?_
          · rw [writeReqFinish_eq]
            refine ⟨⟨rfl, .inr (.inr ?_)⟩, .tail hwrote (.finish rfl (hdone.1 h) hd)⟩
            rw [ioFeed_pending, ioFeed_pending]
          · refine Sat.ite (fun _ => ?_) fun _ => ?_
            · exact (ih hrest).mono (fun t ht => ⟨ht.1.trans rfl, hwrote.trans ht.2⟩) fun e he => .after hwrote he
            · refine ioStartOut_sat.mono (fun t ht => ?_) fun e he => he ▸ Bad.now trivial
              subst ht
              exact ⟨⟨rfl, .inr (.inl ⟨rfl, rfl⟩)⟩, hwrote⟩
      · obtain ⟨n, t⟩ := p
        obtain rfl : t = { s with sent := s.sent ++ more } := ht
        have hspill : Micros T (s.reqs c d) { s.reqs c d with sent := s.sent ++ more } := Micros.spill hmore
        simp only
        rw [if_neg (by simpa using hneg)]
        refine Sat.ite (fun _ => ?_) fun _ => Sat.ite (fun _ => ?_) fun _ => ?_
        · rw [writeReqFinish_eq, ioStopOut_eq, WriteReq.finished_of_ne (q := { req with error := n }) (ne_of_lt hneg)]
          refine ⟨⟨rfl, .inr (.inr ?_)⟩, .tail hspill (.fail hq hneg hd)⟩
          rw [ioFeed_pending, ioFeed_pending]
        · exact (ih hrest).mono (fun t ht => ⟨ht.1.trans rfl, hspill.trans ht.2⟩) fun e he => .after hspill he
        · refine ioStartOut_sat.mono (fun t ht => ?_) fun e he => he ▸ Bad.now trivial
          subst ht
          exact ⟨⟨rfl, .inr (.inl ⟨rfl, rfl⟩)⟩, hspill⟩

theorem uvWrite_sat {c d : Option ℕ} {outs : List Outcome} (hd : ¬ T.dying) (ho : T.narrow → ∀ o ∈ outs, o.Narrow) :
    Sat (fun t => 0 ≤ s.fd ∧ Wrote s t ∧ Micros T (s.reqs c d) (t.reqs c d)) (Bad T (s.reqs c d))
      (s.uvWrite T.iovmax outs) := by
  refine Sat.ite (fun _ => Bad.now trivial) fun hfd => ?_
  exact (uvWriteLoop_sat hd ho).mono (fun _ ht => ⟨not_lt.1 hfd, ht⟩) fun _ he => he

end State

/-! ## Callbacks of writes -/

/-- What `uv__write_callbacks` may change up to a callback. -/
def Popped (s t : State) : Prop :=
  t = { s with pq := t.pq, activeReqs := t.activeReqs, writeQueueSize := t.writeQueueSize, called := t.called }

theorem Popped.trans {s t u : State} (h1 : Popped s t) (h2 : Popped t u) : Popped s u := by
  rw [h1] at h2
  exact h2

namespace State
variable {s : State} {c d : Option ℕ}

theorem reqUnregister_sat :
    Sat (fun t => 0 < s.activeReqs ∧ t = { s with activeReqs := s.activeReqs - 1 }) (· = .crash)
      s.reqUnregister := by
  exact Sat.ite (fun _ => rfl) fun h => ⟨Nat.pos_of_ne_zero h, rfl⟩

theorem popCompleted_sat {q : WriteReq} {rest : List WriteReq} (hq : s.pq = q :: rest) :
    Sat (fun t => Popped s t ∧ t.pq = rest ∧ Micros T (s.reqs c d) (t.reqs c d))
      (Bad T (s.reqs c d)) (s.popCompleted q rest) := by
  refine Sat.bind (reqUnregister_sat.mono (fun _ h => h) fun e he => he ▸ Bad.now trivial) fun t ht => ?_
  obtain ⟨ha, rfl⟩ := ht
  split
  · next hb => exact ⟨rfl, rfl, .one (.pop (r := s.reqs c d) hq ha (.inl ⟨hb, rfl⟩) (Nat.zero_le _))⟩
  · refine Sat.ite (fun hlt => Bad.now ⟨q, by simp [reqs, hq], ?_⟩) fun hle => ?_
    · exact lt_of_lt_of_le hlt (countBufs_eq _ ▸ Nat.mod_le _ _)
    · exact ⟨rfl, rfl, .one (.pop (r := s.reqs c d) hq ha (.inr rfl) (not_lt.1 hle))⟩

theorem runCallbacks_sat {caller : Caller} {env : Env} {l : List WriteReq} (hl : s.pq = l)
    (hcb : ∀ t, Popped s t → Micros T (s.reqs c d) (t.reqs c d) → Q { t with pc := .writeCb caller })
    (hend : ∀ t, Popped s t → t.pq = [] → Micros T (s.reqs c d) (t.reqs c d) → Sat Q E (t.afterCallbacks caller env))
    (herr : ∀ e, Bad T (s.reqs c d) e → E e) : Sat Q E (runCallbacks caller env l s) := by
  induction l generalizing s with
  | nil => exact hend s rfl hl .refl
  | cons q rest ih =>
    refine Sat.bind ((popCompleted_sat hl).mono (fun _ h => h) herr) fun t ht => ?_
    obtain ⟨hf, hr, hm⟩ := ht
    refine Sat.ite (fun _ => hcb t hf hm) fun _ => ih hr ?_ ?_ ?_
    · exact fun u hu hm' => hcb u (hf.trans hu) (hm.trans hm')
    · exact fun u hu he hm' => hend u (hf.trans hu) he (hm.trans hm')
    · exact fun e he => herr e (he.after hm)

end State

/-! ## The end of the write queue -/

/-- What `uv__drain` may change; a shutdown does not outlast it. -/
structure Drained (s t : State) : Prop where
  frame : t = { s with
    pollout := s.ioStopOut.pollout
    shutdownReq := t.shutdownReq
    flags := { s.flags with shutting := t.flags.shutting, shut := t.flags.shut }
    activeReqs := t.activeReqs
    called := t.called
    pc := t.pc }
  pc : t.pc = .idle ∨ t.pc = .shutdownCb
  same : t.flags.shutting = true → t.shutdownReq = s.shutdownReq ∧ s.flags.shutting = true ∧
    (s.flags.closing = true ∨ s.flags.shut = true ∧ t.flags.shut = true)
  gone : t.flags.shutting = false → t.shutdownReq = s.shutdownReq ∧ s.flags.shutting = false ∨ t.shutdownReq = none

namespace State
variable {s : State}

theorem drain_sat {env : Env} (hd : ¬ T.dying) :
    Sat (fun t => Drained s t ∧ Micros T s.all t.view) (Bad T s.all) (s.drain env) := by
  refine Sat.ite (fun _ => Bad.now trivial) fun _ => ?_
  rw [ioStopOut_eq]
  refine Sat.ite (fun hsh => ?_) fun hsh => ?_
  · split
    · exact Bad.now trivial
    · next req hreq =>
      refine Sat.bind (reqUnregister_sat.mono (fun _ h => h) fun e he => he ▸ Bad.now trivial) fun t ht => ?_
      obtain ⟨ha, rfl⟩ := ht
      have hid : s.shutdownId = some req.id := congrArg (Option.map Req.id) hreq
      have hm : ∀ e, Micros T s.all _ := fun e => .one (.shut (e := e) hid ha fun h => absurd h hd)
      dsimp only
      split <;> split
      · exact ⟨⟨rfl, .inr rfl, nofun, fun _ => .inr rfl⟩, (hm _).view nofun nofun⟩
      · exact ⟨⟨rfl, .inr rfl, nofun, fun _ => .inr rfl⟩, (hm _).view nofun nofun⟩
      · exact ⟨⟨rfl, .inl rfl, nofun, fun _ => .inr rfl⟩, (hm _).view nofun nofun⟩
      · exact ⟨⟨rfl, .inl rfl, nofun, fun _ => .inr rfl⟩, (hm _).view nofun nofun⟩
  · refine ⟨⟨rfl, .inl rfl, fun h => ⟨rfl, h, ?_⟩, fun h => .inl ⟨rfl, h⟩⟩, Micros.view .refl nofun nofun⟩
    cases hc : s.flags.closing with
    | true => exact .inl rfl
    | false =>
      have hshut : s.flags.shut = true := by
        by_contra hn
        exact hsh ⟨h, by simp [hc], hn⟩
      exact .inr ⟨hshut, hshut⟩

end State

/-! ## Reading -/

/-- What `uv__read` and `uv__stream_eof` may change. -/
structure Reads (s t : State) : Prop where
  frame : t = { s with
    flags := { s.flags with
      reading := t.flags.reading
      readPartial := t.flags.readPartial
      readEof := t.flags.readEof
      readable := t.flags.readable
      writable := t.flags.writable }
    pollin := t.pollin
    pc := t.pc }
  writable : t.flags.writable = true → s.flags.writable = true
  pollin : s.fd < 0 → t.pollin = true → s.pollin = true

/-- A callback of `uv__stream_io`'s read part, with the events it was entered with. -/
inductive Pc.Reading (ev : Events) : Pc → Prop
  | alloc (count : ℕ) : Reading ev (.allocCb count ev)
  | read (next : ReadNext) : Reading ev (.readCb next ev)
  | eof : Reading ev (.eofCb ev)

/-- `events & (POLLOUT | POLLERR | POLLHUP)` -/
def Events.writes (ev : Events) : Prop := ev.wr ∨ ev.err ∨ ev.hup

theorem Reads.refl (s : State) : Reads s s := ⟨rfl, id, fun _ => id⟩

theorem Reads.trans {s t u : State} (h1 : Reads s t) (h2 : Reads t u) : Reads s u := by
  obtain ⟨hf1, hw1, hp1⟩ := h1
  obtain ⟨hf2, hw2, hp2⟩ := h2
  refine ⟨?_, fun h => hw1 (hw2 h), fun hfd h => hp1 hfd (hp2 ?_ h)⟩
  · rw [hf1] at hf2
    exact hf2
  · rw [hf1]
    exact hfd

namespace State
variable {s : State} {iovmax : ℕ} {ev : Events} {env : Env}

/-- What is wanted where `uv__stream_io` leaves the stream, or goes on to write. -/
structure AfterReads (iovmax : ℕ) (ev : Events) (env : Env) (Q : State → Prop) (E : Fault → Prop) (s : State) :
    Prop where
  idle : ∀ t, Reads s t → t.pc = .idle → Q t
  callback : ∀ t, Reads s t → t.pc.Reading ev → Q t
  write : ∀ t, Reads s t → t.pc = s.pc → t.fd ≠ -1 → ev.writes →
    Sat Q E (t.uvWrite iovmax env.outs >>= fun u => u.writeCallbacks .io env)
  crash : E .crash

theorem AfterReads.after {t : State} (h : AfterReads iovmax ev env Q E s) (hr : Reads s t) (hpc : t.pc = s.pc) :
    AfterReads iovmax ev env Q E t where
  idle u hu := h.idle u (hr.trans hu)
  callback u hu := h.callback u (hr.trans hu)
  write u hu hp := h.write u (hr.trans hu) (hp.trans hpc)
  crash := h.crash

theorem afterEof_sat (h : AfterReads iovmax ev env Q E s) : Sat Q E (s.afterEof iovmax ev env) := by
  have hidle : Q { s with pc := .idle } := h.idle _ ⟨rfl, id, fun _ => id⟩ rfl
  exact Sat.ite (fun _ => hidle) fun hfd => Sat.ite (fun hw => h.write s (.refl s) rfl hfd hw) fun _ => hidle

theorem streamEof_reads : Reads s s.streamEof ∧ s.streamEof.pc = s.pc := by
  unfold streamEof ioStopIn
  split
  · exact ⟨⟨rfl, id, fun _ => id⟩, rfl⟩
  · exact ⟨⟨rfl, id, fun _ h => by cases h⟩, rfl⟩

theorem callRead_sat {next : Pc} (h : AfterReads iovmax ev env Q E s) (hn : next.Reading ev) :
    Sat Q E (s.callRead next) := by
  exact Sat.ite (fun _ => h.callback _ ⟨rfl, id, fun _ => id⟩ hn) fun _ => h.crash

theorem afterRead_sat (h : AfterReads iovmax ev env Q E s) : Sat Q E (s.afterRead iovmax ev env) := by
  refine Sat.ite (fun _ => h.idle _ ⟨rfl, id, fun _ => id⟩ rfl) fun _ => ?_
  refine Sat.ite (fun _ => ?_) fun _ => afterEof_sat h
  exact callRead_sat (h.after streamEof_reads.1 streamEof_reads.2) .eof

theorem readLoop_sat {count : ℕ} (h : AfterReads iovmax ev env Q E s) :
    Sat Q E (s.readLoop iovmax count ev env) := by
  exact Sat.ite (fun _ => h.callback _ ⟨rfl, id, fun _ => id⟩ (.alloc _)) fun _ => afterRead_sat h

theorem ioStartIn_sat : Sat (fun t => 0 ≤ s.fd ∧ t = { s with pollin := true }) (· = .crash) s.ioStartIn := by
  exact Sat.ite (fun _ => rfl) fun h => ⟨not_lt.1 h, rfl⟩

theorem afterAlloc_sat {count : ℕ} (h : AfterReads iovmax ev env Q E s) : Sat Q E (s.afterAlloc count ev env) := by
  refine Sat.ite (fun _ => callRead_sat h (.read _)) fun _ => Sat.ite (fun _ => h.crash) fun hfd => ?_
  split
  · refine Sat.ite (fun _ => ?_) fun _ => callRead_sat h (.read _)
    refine Sat.bind (ioStartIn_sat.mono (fun _ ht => ht) fun e he => he ▸ h.crash) fun t ht => ?_
    obtain ⟨-, rfl⟩ := ht
    exact callRead_sat (h.after ⟨rfl, id, fun hneg => absurd hneg hfd⟩ rfl) (.read _)
  · exact callRead_sat (h.after ⟨rfl, (fun h => by cases h), fun _ => id⟩ rfl) (.read _)
  · exact callRead_sat (h.after streamEof_reads.1 streamEof_reads.2) (.read _)
  · exact Sat.ite (fun _ => callRead_sat h (.read _)) fun _ => callRead_sat h (.read _)

theorem afterReadCb_sat {next : ReadNext} (h : AfterReads iovmax ev env Q E s) :
    Sat Q E (s.afterReadCb iovmax next ev env) := by
  cases next with
  | stop => exact afterRead_sat h
  | error =>
    refine afterRead_sat (h.after ?_ ?_)
    · split
      · unfold ioStopIn
        split
        · exact ⟨rfl, id, fun _ => id⟩
        · exact ⟨rfl, id, fun _ h => by cases h⟩
      · exact .refl s
    · split
      · unfold ioStopIn
        split <;> rfl
      · rfl
  | short => exact afterRead_sat (h.after ⟨rfl, id, fun _ => id⟩ rfl)
  | again count => exact readLoop_sat h

end State

/-! ## Connecting -/

/-- What `uv__stream_connect` has done where it calls the callback. -/
def Connected (s : State) (error : ℤ) (t : State) : Prop :=
  t = { s with
    delayedError := 0
    connectReq := none
    pollout := if error < 0 ∨ s.writeQueue = [] then s.ioStopOut.pollout else s.pollout
    activeReqs := t.activeReqs
    called := t.called }

namespace State
variable {s : State}

theorem streamConnect_sat {req : Req} {env : Env} (hreq : s.connectReq = some req) (hd : ¬ T.dying)
    (hwait : Q { s with delayedError := 0, pc := .idle })
    (hcb : ∀ t, s.connectError env ≠ UV_EINPROGRESS → Connected s (s.connectError env) t → Micros T s.all t.all →
      Q { t with pc := .connectCb (s.connectError env) })
    (hend : ∀ t, s.connectError env ≠ UV_EINPROGRESS → Connected s (s.connectError env) t → Micros T s.all t.all →
      Sat Q E (t.afterConnect (s.connectError env) env))
    (herr : ∀ e, Bad T s.all e → E e) : Sat Q E (s.streamConnect req env) := by
  refine Sat.ite (fun _ => herr _ (.now trivial)) fun _ => Sat.ite (fun _ => herr _ (.now trivial)) fun _ => ?_
  dsimp only
  refine Sat.ite (fun _ => hwait) fun hne => ?_
  refine Sat.bind (reqUnregister_sat.mono (fun _ h => h) fun e he => herr e (he ▸ .now trivial)) fun t ht => ?_
  obtain ⟨ha, rfl⟩ := ht
  have hid : s.connectId = some req.id := congrArg (Option.map Req.id) hreq
  have hm : Micros T s.all _ := .one (.connected (e := s.connectError env) hid ha fun h => absurd h hd)
  generalize hu : (ite (s.connectError env < 0 ∨ s.writeQueue = []) (ioStopOut _) _) = u
  have he : u.call req.id (s.connectError env) = { s with
      delayedError := 0
      connectReq := none
      pollout := if s.connectError env < 0 ∨ s.writeQueue = [] then s.ioStopOut.pollout else s.pollout
      activeReqs := s.activeReqs - 1
      called := s.called ++ [(req.id, s.connectError env)] } := by
    subst hu
    split
    · rw [ioStopOut_eq, ioStopOut_pollout, ioStopOut_pollout]
      rfl
    · rfl
  rw [he]
  exact Sat.ite (fun _ => hcb _ hne rfl hm) fun _ => hend _ hne rfl hm

end State

/-! ## Opening and connecting -/

/-- A fault that no assertion about `write_queue_size` makes. -/
def Fault.Plain (e : Fault) : Prop := e = .stuck ∨ e = .crash

theorem Bad.plain {e : Fault} (h : e.Plain) : Bad T r e := by
  rcases h with rfl | rfl
  · exact .now trivial
  · exact .now trivial

/-- What is changed where a stream is opened or bound, or a connect is refused. -/
structure Opened (s t : State) : Prop where
  frame : t = { s with
    fd := t.fd
    delayedError := t.delayedError
    flags := { s.flags with readable := t.flags.readable, writable := t.flags.writable } }
  fd : t.fd = s.fd ∨ 0 ≤ t.fd

/-- What is changed where a connect request is accepted. -/
structure Connecting (s : State) (cb : Bool) (t : State) : Prop where
  frame : t = { s.connectSubmit cb with
    fd := t.fd
    delayedError := t.delayedError
    flags := { s.flags with readable := t.flags.readable, writable := t.flags.writable }
    pollout := t.pollout
    pending := t.pending }
  fd : t.fd = s.fd ∨ 0 ≤ t.fd
  pending : t.pending = s.pending ∨ t.pending = s.ioFeed.pending

theorem Opened.refl (s : State) : Opened s s := ⟨rfl, .inl rfl⟩

namespace State
variable {s : State} {cb : Bool}

theorem streamOpen_sat {fd : ℤ} {r w : Bool} : Sat (Opened s) Fault.Plain (s.streamOpen fd r w) := by
  exact Sat.ite (fun _ => .refl s) fun _ => Sat.ite (fun _ => .inr rfl) fun hfd => ⟨rfl, .inr (not_lt.1 hfd)⟩

theorem bind_sat {fd e : ℤ} : Sat (Opened s) Fault.Plain (s.bind fd e) := by
  refine Sat.ite (fun _ => .inl rfl) fun hfd => ?_
  have hfd : 0 ≤ fd := not_lt.1 fun h => hfd (.inl h)
  dsimp only
  split
  · split
    · exact ⟨rfl, .inr hfd⟩
    · exact ⟨rfl, .inr hfd⟩
  · split
    · exact ⟨rfl, .inl rfl⟩
    · exact .refl s

theorem ioStartOut_plain : Sat (fun t => t = { s with pollout := true }) Fault.Plain s.ioStartOut :=
  ioStartOut_sat.mono (fun _ h => h) fun _ h => .inr h

theorem connecting_feed {t : State} (h : Connecting s cb t) (hp : t.pending = s.pending) : Connecting s cb t.ioFeed := by
  rw [ioFeed_eq]
  refine ⟨?_, h.fd, .inr ?_⟩
  · rw [h.frame]
  · rw [ioFeed_pending, ioFeed_pending, hp]

theorem tcpConnectOut_sat {u : State} (hu : Opened s u) : Sat (Connecting s cb) Fault.Plain (u.tcpConnectOut cb) := by
  refine Sat.bind ioStartOut_plain fun t ht => ?_
  subst ht
  have hsub : Connecting s cb { u.connectSubmit cb with pollout := true } := by
    refine ⟨?_, hu.fd, .inl ?_⟩
    · rw [hu.frame]
      rfl
    · rw [hu.frame]
      rfl
  split
  · exact connecting_feed hsub (by rw [hu.frame]; rfl)
  · exact hsub

theorem tcpConnect_sat {sock : NewSocket} {res : ConnectResult} :
    Sat (fun t => Opened s t ∨ s.connectReq = none ∧ Connecting s cb t) Fault.Plain (s.tcpConnect cb sock res) := by
  refine Sat.ite (fun _ => .inr rfl) fun _ => Sat.ite (fun _ => .inl (.refl s)) fun hreq => ?_
  have hout : ∀ {u : State}, Opened s u →
      Sat (fun t => Opened s t ∨ s.connectReq = none ∧ Connecting s cb t) Fault.Plain (u.tcpConnectOut cb) := fun hu =>
    (tcpConnectOut_sat hu).mono (fun _ ht => .inr ⟨by simpa using hreq, ht⟩) fun _ h => h
  refine Sat.ite (fun _ => hout (.refl s)) fun _ => ?_
  cases sock with
  | error flags =>
    dsimp only
    split
    · exact .inl ⟨rfl, .inl rfl⟩
    · exact .inl (.refl s)
  | fd fd =>
    refine Sat.ite (fun _ => .inl rfl) fun hneg => ?_
    have hnew : ∀ e, Opened s { (if s.fd = -1 then { s with fd := fd } else s).setReadWrite with delayedError := e } := by
      intro e
      split
      · exact ⟨rfl, .inr (not_lt.1 hneg)⟩
      · exact ⟨rfl, .inl rfl⟩
    cases res with
    | ok | inProgress | refused => exact hout (hnew _)
    | error e => exact .inl (hnew _)

theorem pipeConnectOut_sat {u : State} {e : ℤ} (hu : Connecting s cb ({ u with delayedError := e }.connectSubmit cb))
    (hp : u.pending = s.pending) : Connecting s cb (u.pipeConnectOut cb e) := by
  unfold pipeConnectOut
  split
  · exact connecting_feed hu hp
  · exact hu

theorem pipeConnect_sat {sock : Except ℤ ℤ} {res : ConnectResult} :
    Sat (Connecting s cb) Fault.Plain (s.pipeConnect cb sock res) := by
  refine Sat.ite (fun _ => .inr rfl) fun _ => ?_
  dsimp only
  split
  · exact Sat.ite (fun _ => pipeConnectOut_sat ⟨rfl, .inl rfl, .inl rfl⟩ rfl) fun _ => .inl rfl
  · next fd _ =>
    refine Sat.ite (fun _ => .inl rfl) fun hneg => ?_
    have hfd : 0 ≤ fd := not_lt.1 hneg
    have hstart : Sat (Connecting s cb) Fault.Plain
        ((if decide (s.fd = -1) = true then { s with fd := fd }.setReadWrite else { s with fd := fd }).ioStartOut >>=
          fun u => .ok (u.pipeConnectOut cb 0)) := by
      refine Sat.bind ioStartOut_plain fun t ht => ?_
      subst ht
      split
      · exact pipeConnectOut_sat ⟨rfl, .inr hfd, .inl rfl⟩ rfl
      · exact pipeConnectOut_sat ⟨rfl, .inr hfd, .inl rfl⟩ rfl
    cases res with
    | refused => exact pipeConnectOut_sat ⟨rfl, .inr hfd, .inl rfl⟩ rfl
    | error e => exact Sat.ite (fun _ => pipeConnectOut_sat ⟨rfl, .inr hfd, .inl rfl⟩ rfl) fun _ => .inl rfl
    | ok | inProgress => exact hstart

end State
end Libuv.L3.Stream
