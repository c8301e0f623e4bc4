import Libuv.L3Stream.Rules

/-!
# A step of a stream as steps of its requests

Each label of `system`, whatever the caller and the kernel decide, does to the requests what
some `Micro` steps do, and fails at an assertion about `write_queue_size` only where the
requests say so. `Wf` is what the stream keeps about itself for that: where the library waits,
which requests there can be then, and that nothing is left once `uv__stream_destroy` has flushed the
queue, for a stream that takes no request from there on.
-/
namespace Libuv.L3.Stream

open State (offered)

variable {T : Terms} {r r' : Reqs} {s t : State}

/-- A callback of `uv__stream_destroy`. -/
def Pc.destroying : Pc → Bool
  | writeCb .destroy => true
  | destroyConnectCb => true
  | destroyShutdownCb => true
  | _ => false

/-- `uv__stream_destroy` has flushed the write queue. -/
def State.Flushed (s : State) : Prop := s.pc = .writeCb .destroy ∨ s.pc = .destroyShutdownCb ∨ s.destroyed = true

/-- `uv_write2` accepts the request: the stream can be written to, and there is memory. -/
def State.AcceptsWrite (s : State) (bufs : List Buf) (send : Option Bool) (alloc : Bool) : Prop :=
  s.checkBeforeWrite send = true ∧ (4 < bufs.length → alloc = true)

structure Wf (T : Terms) (s : State) : Prop where
  running : s.pq = [] ∨ ∃ c, s.pc = .writeCb c
  shutdown : s.shutdownReq.isSome = true → s.flags.shutting = true
  closing : s.flags.closed = true → s.flags.closing = true
  destroying : s.pc.destroying = true → s.flags.closed = true
  closed : s.flags.closed = true → s.destroyed = true ∨ s.pc.destroying = true
  connecting : s.pc = .destroyConnectCb → s.connectReq.isSome = true
  flushed : T.tidy → s.Flushed → s.writeQueue = [] ∧ s.writeCompletedQueue = []
  unconnected : T.lossless → s.Flushed → s.connectReq = none
  ended : s.destroyed = true → s.pc = .idle ∧ s.flags.closed = true ∧ s.shutdownReq = none

theorem Wf.live (hpq : s.pq = [] ∨ ∃ c, s.pc = .writeCb c) (hsh : s.shutdownReq.isSome = true → s.flags.shutting = true)
    (hc : s.flags.closed = false) (hd : s.destroyed = false) (hpc : s.pc.destroying = false) : Wf T s := by
  have hclosed : s.flags.closed = true → ∀ {P : Prop}, P := fun h => by
    rw [hc] at h
    cases h
  have hflushed : s.Flushed → ∀ {P : Prop}, P := fun h => by
    rcases h with h | h | h
    · rw [h] at hpc
      cases hpc
    · rw [h] at hpc
      cases hpc
    · rw [hd] at h
      cases h
  refine ⟨hpq, hsh, fun h => hclosed h, fun h => ?_, fun h => hclosed h, fun h => ?_, fun _ h => hflushed h,
    fun _ h => hflushed h, fun h => hflushed (.inr (.inr h))⟩
  · rw [hpc] at h
    cases h
  · rw [h] at hpc
    cases hpc

/-- What the library's code leads to from the requests `r`. -/
def Lib (T : Terms) (r : Reqs) (x : Except Fault State) : Prop :=
  Sat (fun t => Wf T t ∧ Micros T r t.view) (Bad T r) x

theorem Lib.after {x : Except Fault State} (h : Micros T r r') (hx : Lib T r' x) : Lib T r x :=
  hx.mono (fun _ ht => ⟨ht.1, h.trans ht.2⟩) fun _ he => he.after h

theorem Lib.same (ht : Wf T t) (h : t.view = r) : Lib T r (.ok t) := by
  subst h
  exact ⟨ht, .refl⟩

/-! ## The end of the callbacks -/

theorem Wf.idle (hs : Wf T s) (hpq : s.pq = []) (hc : s.flags.closed = false) (hd : s.destroyed = false) :
    Wf T { s with pc := .idle } := .live (.inl hpq) hs.shutdown hc hd rfl

theorem Wf.popped {caller : Caller} (hs : Wf T { s with pc := .writeCb caller }) (ht : Popped s t) :
    Wf T { t with pc := .writeCb caller } := by
  rw [ht]
  exact ⟨.inr ⟨_, rfl⟩, hs.shutdown, hs.closing, hs.destroying, hs.closed, nofun, hs.flushed, hs.unconnected, hs.ended⟩

theorem Popped.all (ht : Popped s t) : t.reqs s.connectId s.shutdownId = t.all := by
  rw [ht]
  rfl

theorem Wf.not_closed (hs : Wf T s) (h1 : s.pc ≠ .idle) (h2 : s.pc.destroying = false) : s.flags.closed = false := by
  cases hc : s.flags.closed with
  | false => rfl
  | true =>
    rcases hs.closed hc with h | h
    · exact absurd (hs.ended h).1 h1
    · rw [h2] at h
      cases h

theorem Wf.alive (hs : Wf T s) (h : s.pc ≠ .idle) : s.destroyed = false := by
  cases hd : s.destroyed with
  | false => rfl
  | true => exact absurd (hs.ended hd).1 h

theorem Wf.called (hs : Wf T s) {pc : Pc} (hpc : s.pc = pc) (hidle : pc ≠ .idle) (hwrite : ∀ c, pc ≠ .writeCb c)
    (hpd : pc.destroying = false) :
    s.destroyed = false ∧ s.pq = [] ∧ s.flags.closed = false ∧ s.view = s.all := by
  subst hpc
  have hc := hs.not_closed hidle hpd
  refine ⟨hs.alive hidle, hs.running.resolve_right fun ⟨c, hc⟩ => hwrite c hc, hc, State.view_eq_all (fun e => ?_) fun e => ?_⟩
  · rw [e] at hpd
    cases hpd
  · rw [e] at hpd
    cases hpd

theorem Wf.drained {caller : Caller} (hs : Wf T { s with pc := .writeCb caller }) (hc : s.flags.closed = false)
    (hpq : s.pq = []) (hd : s.destroyed = false) (ht : Drained s t) : Wf T t := by
  have hpc : t.pc.destroying = false := by
    rcases ht.pc with h | h
    · rw [h]
      rfl
    · rw [h]
      rfl
  refine .live (.inl ?_) (fun h => ?_) ?_ ?_ hpc
  · rw [ht.frame]
    exact hpq
  · cases hsh : t.flags.shutting with
    | true => rfl
    | false =>
      rcases ht.gone hsh with ⟨h1, h2⟩ | h1
      · rw [h1] at h
        rw [hs.shutdown h] at h2
        cases h2
      · rw [h1] at h
        cases h
  · rw [ht.frame]
    exact hc
  · rw [ht.frame]
    exact hd

theorem Pc.Reading.live {ev : Events} {pc : Pc} (h : pc.Reading ev) :
    pc.destroying = false ∧ pc ≠ .destroyConnectCb ∧ pc ≠ .destroyShutdownCb := by
  cases h with
  | alloc | read | eof => exact ⟨rfl, nofun, nofun⟩

namespace State

theorem destroyEnd_lib (hs : Wf T { s with pc := .writeCb .destroy }) (hpq : s.pq = []) (hsh : s.shutdownReq = none) :
    Lib T s.all s.destroyEnd := by
  refine Sat.ite (fun hne => Bad.now fun ho => ?_) fun _ => ?_
  · obtain ⟨h1, h2⟩ := hs.flushed ho (.inl rfl)
    exact ⟨h1, h2, hpq, hne⟩
  · exact ⟨⟨.inl hpq, hs.shutdown, hs.closing, nofun, fun _ => .inl rfl, nofun, fun ho _ => hs.flushed ho (.inl rfl),
      fun ho _ => hs.unconnected ho (.inl rfl), fun _ => ⟨rfl, hs.destroying rfl, hsh⟩⟩, Micros.view .refl nofun nofun⟩

theorem destroyShutdown_lib (hs : Wf T { s with pc := .writeCb .destroy }) (hpq : s.pq = []) (hd : s.destroyed = false) :
    Lib T s.all s.destroyShutdown := by
  unfold destroyShutdown
  cases hreq : s.shutdownReq with
  | none => exact destroyEnd_lib hs hpq hreq
  | some req =>
    refine Sat.bind (reqUnregister_sat.mono (fun _ h => h) fun e he => he ▸ Bad.now trivial) fun t ht => ?_
    obtain ⟨ha, rfl⟩ := ht
    refine Sat.ite (fun _ => ⟨?_, ?_⟩) fun _ => Bad.now trivial
    · refine ⟨.inl hpq, hs.shutdown, hs.closing, fun _ => hs.destroying rfl, fun _ => .inr rfl, nofun,
        fun ho _ => hs.flushed ho (.inl rfl), fun ho _ => hs.unconnected ho (.inl rfl), fun h => ?_⟩
      rw [show s.destroyed = true from h] at hd
      cases hd
    · have hid : s.shutdownId = some req.id := congrArg (Option.map Req.id) hreq
      exact .one (.shut (r := s.all) (e := UV_ECANCELED) hid ha fun _ => rfl)

variable {caller : Caller} {env : Env} {cb : Bool}

theorem afterCallbacks_lib (hs : Wf T { s with pc := .writeCb caller }) (hpq : s.pq = [])
    (hd : s.destroyed = false) (hdy : T.dying → s.flags.closed = true) : Lib T s.all (s.afterCallbacks caller env) := by
  cases caller with
  | io =>
    have hc : s.flags.closed = false := hs.not_closed nofun rfl
    refine Sat.ite (fun _ => ?_) fun _ => ⟨hs.idle hpq hc hd, Micros.view .refl nofun nofun⟩
    have hnd : ¬ T.dying := fun h => by
      rw [hdy h] at hc
      cases hc
    exact (drain_sat hnd).mono (fun t ht => ⟨hs.drained hc hpq hd ht.1, ht.2⟩) fun _ he => he
  | connect => exact ⟨hs.idle hpq (hs.not_closed nofun rfl) hd, Micros.view .refl nofun nofun⟩
  | destroy => exact destroyShutdown_lib hs hpq hd

theorem runCallbacks_lib {l : List WriteReq} (hs : Wf T { s with pc := .writeCb caller })
    (hl : s.pq = l) (hd : s.destroyed = false) (hdy : T.dying → s.flags.closed = true) :
    Lib T s.all (runCallbacks caller env l s) := by
  refine runCallbacks_sat (T := T) (c := s.connectId) (d := s.shutdownId) hl (fun t ht hm => ?_) (fun t ht hpq hm => ?_)
    fun _ he => he
  · rw [ht.all] at hm
    exact ⟨hs.popped ht, Micros.view (t := { t with pc := .writeCb caller }) hm nofun nofun⟩
  · rw [ht.all] at hm
    have hframe := ht
    refine Lib.after hm (afterCallbacks_lib (hs.popped ht) hpq ?_ ?_)
    · rw [hframe]
      exact hd
    · rw [hframe]
      exact hdy

theorem writeCallbacks_lib (hs : Wf T { s with pc := .writeCb caller, writeCompletedQueue := [] })
    (hpq : s.pq = []) (hd : s.destroyed = false) (hdy : T.dying → s.flags.closed = true) :
    Lib T s.all (s.writeCallbacks caller env) := by
  have hb : Micros T s.all _ := .one (.begin (r := s.all) hpq)
  refine Lib.after hb ?_
  exact runCallbacks_lib (s := { s with pq := s.writeCompletedQueue, writeCompletedQueue := [] })
    ⟨.inr ⟨_, rfl⟩, hs.shutdown, hs.closing, hs.destroying, hs.closed, nofun, hs.flushed, hs.unconnected, hs.ended⟩ rfl hd hdy

theorem destroyWrites_lib (hsh : s.shutdownReq.isSome = true → s.flags.shutting = true) (hcl : s.flags.closing = true)
    (hc : s.flags.closed = true) (hpq : s.pq = []) (hd : s.destroyed = false) (hreq : s.connectReq = none) :
    Lib T s.all (s.destroyWrites env) := by
  refine Lib.after (.one (.flush (r := s.all))) ?_
  refine writeCallbacks_lib (s := s.flushWriteQueue UV_ECANCELED) ?_ hpq hd fun _ => hc
  refine ⟨.inr ⟨_, rfl⟩, hsh, fun _ => hcl, fun _ => hc, fun _ => .inr rfl, nofun, fun _ _ => ⟨rfl, rfl⟩, fun _ _ => hreq, fun h => ?_⟩
  rw [show s.destroyed = true from h] at hd
  cases hd

theorem streamDestroy_lib (hs : Wf T s) (hpc : s.pc = .idle) (hcl : s.flags.closing = true)
    (hd : s.destroyed = false) : Lib T s.view (s.streamDestroy env) := by
  have hpq : s.pq = [] := by
    rcases hs.running with h | ⟨c, h⟩
    · exact h
    · rw [hpc] at h
      cases h
  have hend : ∀ {P : Prop}, s.destroyed = true → P := fun h => by
    rw [h] at hd
    cases hd
  rw [view_eq_all (by rw [hpc]; nofun) (by rw [hpc]; nofun)]
  refine Sat.ite (fun _ => Bad.now trivial) fun _ => ?_
  dsimp only
  split
  · next req hreq =>
    refine Sat.bind (reqUnregister_sat.mono (fun _ h => h) fun e he => he ▸ Bad.now trivial) fun t ht => ?_
    obtain ⟨ha, rfl⟩ := ht
    have hflushed : Flushed { s with flags := { s.flags with closed := true }, pc := .destroyConnectCb } → ∀ {P : Prop}, P := fun h => by
      rcases h with h | h | h
      · cases h
      · cases h
      · exact hend h
    refine Sat.ite (fun _ => ⟨?_, ?_⟩) fun _ => Bad.now trivial
    · exact ⟨.inl hpq, hs.shutdown, fun _ => hcl, fun _ => rfl, fun _ => .inr rfl, fun _ => congrArg Option.isSome hreq,
        fun _ h => hflushed h, fun _ h => hflushed h, hend⟩
    · have hid : s.connectId = some req.id := congrArg (Option.map Req.id) hreq
      exact .one (.connected (r := s.all) (e := UV_ECANCELED) hid ha fun _ => rfl)
  · next hreq => exact destroyWrites_lib (s := { s with flags := { s.flags with closed := true } }) hs.shutdown hcl rfl hpq hd hreq

/-! ## Events -/

theorem afterConnect_lib {error : ℤ} (hs : Wf T s) (hc : s.flags.closed = false)
    (hpq : s.pq = []) (hd : s.destroyed = false) (hdy : T.dying → s.flags.closed = true) :
    Lib T s.all (s.afterConnect error env) := by
  have hidle : Lib T s.all (.ok { s with pc := .idle }) := ⟨hs.idle hpq hc hd, Micros.view .refl nofun nofun⟩
  refine Sat.ite (fun _ => hidle) fun _ => Sat.ite (fun _ => ?_) fun _ => hidle
  refine Lib.after (.one (.flush (r := s.all))) ?_
  refine writeCallbacks_lib (s := s.flushWriteQueue UV_ECANCELED) ?_ hpq hd hdy
  exact .live (.inr ⟨_, rfl⟩) hs.shutdown hc hd rfl

theorem streamConnect_lib {req : Req} (hs : Wf T s) (hpc : s.pc = .idle) (hreq : s.connectReq = some req)
    (hc : s.flags.closed = false) (hpq : s.pq = []) (hd : s.destroyed = false) (hdy : T.dying → s.flags.closed = true) :
    Lib T s.all (s.streamConnect req env) := by
  have hnd : ¬ T.dying := fun h => by
    rw [hdy h] at hc
    cases hc
  have hidle : Wf T { s with delayedError := 0, pc := .idle } := .live (.inl hpq) hs.shutdown hc hd rfl
  refine streamConnect_sat hreq hnd ⟨hidle, Micros.view .refl nofun nofun⟩ (fun t _ ht hm => ?_) (fun t _ ht hm => ?_)
    fun _ he => he
  · refine ⟨?_, Micros.view (t := { t with pc := .connectCb (s.connectError env) }) hm nofun nofun⟩
    rw [ht]
    exact .live (.inl hpq) hs.shutdown hc hd rfl
  · refine Lib.after hm (afterConnect_lib ?_ ?_ ?_ ?_ ?_)
    · rw [ht]
      exact .live (.inl hpq) hs.shutdown hc hd (by rw [hpc]; rfl)
    all_goals rw [ht]
    · exact hc
    · exact hpq
    · exact hd
    · exact hdy

theorem reads_wf (hs : Wf T s) (hc : s.flags.closed = false) (hpq : s.pq = []) (hd : s.destroyed = false)
    (ht : Reads s t) (hpc : t.pc.destroying = false) : Wf T t := by
  have hf := ht.frame
  refine .live (.inl ?_) ?_ ?_ ?_ hpc
  all_goals rw [hf]
  · exact hpq
  · exact hs.shutdown
  · exact hc
  · exact hd

theorem reads_all (ht : Reads s t) : t.all = s.all := by
  rw [ht.frame]
  rfl

theorem afterReads_lib {ev : Events} (hs : Wf T s) (hc : s.flags.closed = false) (hpq : s.pq = [])
    (hd : s.destroyed = false) (hdy : T.dying → s.flags.closed = true) (ho : T.narrow → ∀ o ∈ env.outs, o.Narrow) :
    AfterReads T.iovmax ev env (fun t => Wf T t ∧ Micros T s.all t.view) (Bad T s.all) s where
  idle t ht hpc := by
    have hall := reads_all ht
    refine ⟨reads_wf hs hc hpq hd ht (by rw [hpc]; rfl), ?_⟩
    rw [view_eq_all (by rw [hpc]; nofun) (by rw [hpc]; nofun), hall]
    exact .refl
  callback t ht hpc := by
    have hall := reads_all ht
    have hp := hpc.live
    refine ⟨reads_wf hs hc hpq hd ht hp.1, ?_⟩
    rw [view_eq_all hp.2.1 hp.2.2, hall]
    exact .refl
  write t ht _ _ _ := by
    have hnd : ¬ T.dying := fun h => by
      rw [hdy h] at hc
      cases hc
    have hf := ht.frame
    rw [← reads_all ht]
    refine Sat.bind ((uvWrite_sat (c := t.connectId) (d := t.shutdownId) hnd ho).mono (fun _ h => h) fun _ he => he) fun u hu => ?_
    obtain ⟨-, hu, hm⟩ := hu
    have hg := hu.frame
    have hids : u.reqs t.connectId t.shutdownId = u.all := by
      rw [hg]
      rfl
    rw [hids] at hm
    refine Lib.after hm (writeCallbacks_lib ?_ ?_ ?_ ?_)
    · refine .live (.inr ⟨_, rfl⟩) ?_ ?_ ?_ rfl
      all_goals rw [hg, hf]
      · exact hs.shutdown
      · exact hc
      · exact hd
    all_goals rw [hg, hf]
    · exact hpq
    · exact hd
    · exact hdy
  crash := Bad.now trivial

theorem streamIo_lib {ev : Events} (hs : Wf T s) (hpc : s.pc = .idle)
    (hdy : T.dying → s.flags.closed = true) (ho : T.narrow → ∀ o ∈ env.outs, o.Narrow) :
    Lib T s.view (s.streamIo T.iovmax ev env) := by
  have hpq : s.pq = [] := by
    rcases hs.running with h | ⟨c, h⟩
    · exact h
    · rw [hpc] at h
      cases h
  rw [view_eq_all (by rw [hpc]; nofun) (by rw [hpc]; nofun)]
  refine Sat.ite (fun _ => Bad.now trivial) fun hcl => ?_
  have hc : s.flags.closed = false := by
    cases h : s.flags.closed with
    | false => rfl
    | true => exact absurd (hs.closing h) hcl
  have hd : s.destroyed = false := by
    cases hend : s.destroyed with
    | false => rfl
    | true =>
      have := (hs.ended hend).2.1
      rw [hc] at this
      cases this
  split
  · next req hreq => exact streamConnect_lib hs hpc hreq hc hpq hd hdy
  · have hreads : AfterReads T.iovmax ev env _ _ s := afterReads_lib hs hc hpq hd hdy ho
    refine Sat.ite (fun _ => Bad.now trivial) fun _ => Sat.ite (fun _ => ?_) fun _ => afterRead_sat hreads
    exact readLoop_sat (hreads.after ⟨rfl, id, fun _ => id⟩ rfl)

theorem ret_lib (hs : Wf T s) (hdy : T.dying → s.flags.closed = true) (ho : T.narrow → ∀ o ∈ env.outs, o.Narrow) :
    Lib T s.view (s.ret T.iovmax env) := by
  have hpq : (∀ c, s.pc ≠ .writeCb c) → s.pq = [] := fun h => hs.running.resolve_right fun ⟨c, hc⟩ => h c hc
  unfold ret
  split
  · exact Bad.now trivial
  · next error hpc =>
    obtain ⟨hd, hpq, hc, hview⟩ := hs.called hpc nofun nofun rfl
    rw [hview]
    exact afterConnect_lib hs hc hpq hd hdy
  · next count ev hpc =>
    obtain ⟨hd, hpq, hc, hview⟩ := hs.called hpc nofun nofun rfl
    rw [hview]
    exact afterAlloc_sat (afterReads_lib hs hc hpq hd hdy ho)
  · next nxt ev hpc =>
    obtain ⟨hd, hpq, hc, hview⟩ := hs.called hpc nofun nofun rfl
    rw [hview]
    exact afterReadCb_sat (afterReads_lib hs hc hpq hd hdy ho)
  · next ev hpc =>
    obtain ⟨hd, hpq, hc, hview⟩ := hs.called hpc nofun nofun rfl
    rw [hview]
    exact afterEof_sat (afterReads_lib hs hc hpq hd hdy ho)
  · next caller hpc =>
    have hd := hs.alive (by rw [hpc]; nofun)
    rw [view_eq_all (by rw [hpc]; nofun) (by rw [hpc]; nofun)]
    exact runCallbacks_lib (by rw [← hpc]; exact hs) rfl hd hdy
  · next hpc =>
    obtain ⟨hd, hpq, hc, hview⟩ := hs.called hpc nofun nofun rfl
    rw [hview]
    exact ⟨hs.idle hpq hc hd, Micros.view .refl nofun nofun⟩
  · next hpc =>
    have hd := hs.alive (by rw [hpc]; nofun)
    have hpq := hpq (by rw [hpc]; nofun)
    have hc := hs.destroying (by rw [hpc]; rfl)
    have hview : s.view = State.all { s with connectReq := none } := by
      rw [view, if_pos hpc, if_neg (by rw [hpc]; nofun)]
      rfl
    rw [hview]
    exact destroyWrites_lib (s := { s with connectReq := none }) hs.shutdown (hs.closing hc) hc hpq hd rfl
  · next hpc =>
    have hd := hs.alive (by rw [hpc]; nofun)
    have hpq := hpq (by rw [hpc]; nofun)
    have hc := hs.destroying (by rw [hpc]; rfl)
    have hview : s.view = State.all { s with shutdownReq := none } := by
      rw [view, if_pos hpc, if_neg (by rw [hpc]; nofun)]
      rfl
    rw [hview]
    refine destroyEnd_lib (s := { s with shutdownReq := none }) ?_ hpq rfl
    refine ⟨.inr ⟨_, rfl⟩, nofun, hs.closing, fun _ => hc, fun _ => .inr rfl, nofun,
      fun ho _ => hs.flushed ho (.inr (.inl hpc)), fun ho _ => hs.unconnected ho (.inr (.inl hpc)), fun h => ?_⟩
    rw [show s.destroyed = true from h] at hd
    cases hd

/-! ## The API -/

theorem opened_lib (hs : Wf T s) (ht : Opened s t) : Wf T t ∧ Micros T s.view t.view := by
  rw [ht.frame]
  exact ⟨{ hs with }, .refl⟩

theorem connecting_lib (hs : Wf T s) (hd : s.destroyed = false) (hl : T.lossless → s.connectReq = none ∧ ¬ s.Flushed)
    (ht : Connecting s cb t) : Wf T t ∧ Micros T s.view t.view := by
  rw [ht.frame]
  refine ⟨{ hs with
    connecting := fun _ => rfl
    unconnected := fun h hf => absurd hf (hl h).2
    ended := fun h => ?_ }, ?_⟩
  · rw [show s.destroyed = true from h] at hd
    cases hd
  · have hview : ∀ c, (if s.pc = .destroyConnectCb then none else some s.calls.length) = c →
        Micro T s.view { s.view with connect := c, active := s.view.active + 1, calls := s.view.calls ++ [.connect cb] } →
        Micros T s.view (State.view { s.connectSubmit cb with
          fd := t.fd
          delayedError := t.delayedError
          flags := { s.flags with readable := t.flags.readable, writable := t.flags.writable }
          pollout := t.pollout
          pending := t.pending }) := fun c hc hm => by
      subst hc
      exact .one hm
    by_cases hpc : s.pc = .destroyConnectCb
    · have hp : ¬ T.lossless := fun h => by
        have := hs.connecting hpc
        rw [(hl h).1] at this
        cases this
      exact hview none (if_pos hpc) (.lose hp nofun)
    · refine hview (some s.calls.length) (if_neg hpc) ?_
      cases hreq : s.connectReq with
      | none =>
        refine .connect (r := s.view) ?_
        simp [view, reqs, connectId, hreq]
      | some req =>
        have hp : ¬ T.lossless := fun h => by
          rw [(hl h).1] at hreq
          cases hreq
        refine .lose (r := s.view) hp fun i hi => ?_
        exact (Option.some.inj hi).symm

theorem tcpConnect_lib (hs : Wf T s) (hd : s.destroyed = false) (hf : T.lossless → ¬ s.Flushed)
    {sock : NewSocket} {res : ConnectResult} : Lib T s.view (s.tcpConnect cb sock res) := by
  refine tcpConnect_sat.mono (fun t ht => ?_) fun _ he => .plain he
  rcases ht with ht | ⟨hreq, ht⟩
  · exact opened_lib hs ht
  · exact connecting_lib hs hd (fun h => ⟨hreq, hf h⟩) ht

theorem pipeConnect_lib (hs : Wf T s) (hd : s.destroyed = false) (hl : T.lossless → s.connectReq = none ∧ ¬ s.Flushed)
    {sock : Except ℤ ℤ} {res : ConnectResult} : Lib T s.view (s.pipeConnect cb sock res) :=
  pipeConnect_sat.mono (fun _ ht => connecting_lib hs hd hl ht) fun _ he => .plain he

theorem not_flushed_closed (hs : Wf T s) (hf : ¬ s.Flushed) (hreq : ¬ s.connectReq.isSome = true) : s.flags.closed = false := by
  cases hc : s.flags.closed with
  | false => rfl
  | true =>
    rcases hs.closed hc with h | h
    · exact absurd (.inr (.inr h)) hf
    · cases hpc : s.pc with
      | writeCb caller =>
        cases caller with
        | destroy => exact absurd (.inl hpc) hf
        | io | connect =>
          rw [hpc] at h
          cases h
      | destroyShutdownCb => exact absurd (.inr (.inl hpc)) hf
      | destroyConnectCb => exact absurd (hs.connecting hpc) hreq
      | _ =>
        rw [hpc] at h
        cases h

theorem write2_lib (hs : Wf T s) (hdy : T.dying → s.flags.closed = true) (hdt : T.dying → T.tidy)
    {bufs : List Buf} {send : Option Bool} {alloc : Bool} {outs : List Outcome}
    (hf : T.tidy → s.AcceptsWrite bufs send alloc → ¬ s.Flushed)
    (hl : T.lossless → s.checkBeforeWrite send = true → s.AcceptsWrite bufs send alloc)
    (hb : T.bounded → s.AcceptsWrite bufs send alloc → s.view.outstanding + bufs.flatten.length < sizeMax)
    (ho : T.narrow → ∀ o ∈ outs, o.Narrow) : Lib T s.view (s.write2 T.iovmax bufs send cb alloc outs) := by
  refine Sat.ite (fun _ => Bad.now trivial) fun hne => Sat.ite (fun _ => Lib.same hs rfl) fun hcheck => ?_
  have hcheck : s.checkBeforeWrite send = true := by simpa using hcheck
  refine Sat.ite (fun hmem => ?_) fun hmem => ?_
  · refine ⟨{ hs with }, .one (.leak (r := s.view) fun h => ?_)⟩
    rw [(hl h hcheck).2 hmem.1] at hmem
    cases hmem.2
  have haccept : s.AcceptsWrite bufs send alloc := ⟨hcheck, fun hlong => by simpa [hlong] using hmem⟩
  have hopen : T.tidy → ¬ s.Flushed := fun h => hf h haccept
  have hsub : Micros T s.view (s.writeSubmit bufs send cb).view := .one (.submit (r := s.view) hne fun h => hb h haccept)
  have hwf : Wf T (s.writeSubmit bufs send cb) := { hs with flushed := fun ho hf => absurd hf (hopen ho) }
  refine Lib.after hsub (Sat.ite (fun _ => Lib.same hwf rfl) fun hreq => Sat.ite (fun _ => ?_) fun _ => ?_)
  · have hnd : ¬ T.dying := fun h => by
      have := hdy h
      rw [not_flushed_closed hs (hopen (hdt h)) hreq] at this
      cases this
    refine (uvWrite_sat hnd ho).mono (fun t ht => ?_) fun _ he => he
    obtain ⟨-, ht, hm⟩ := ht
    have hf := ht.frame
    refine ⟨?_, ?_⟩
    · rw [hf]
      exact { hwf with flushed := fun ho h => absurd h (hopen ho) }
    · rw [hf] at hm ⊢
      exact hm
  · refine Sat.ite (fun _ => Bad.now trivial) fun _ => ?_
    refine ioStartOut_sat.mono (fun t ht => ?_) fun e he => he ▸ Bad.now trivial
    subst ht
    exact ⟨{ hwf with }, .refl⟩

theorem tryWrite2_lib (hs : Wf T s) {bufs : List Buf} {o : Outcome} (ho : T.narrow → o.Narrow) :
    Lib T s.view (s.tryWrite2 T.iovmax bufs o) := by
  refine Sat.ite (fun _ => Lib.same hs rfl) fun hfree => Sat.ite (fun _ => Bad.now trivial) fun _ => ?_
  refine Sat.ite (fun _ => Lib.same hs rfl) fun _ => ?_
  have hsize : s.writeQueueSize = 0 := by
    by_contra h
    exact hfree (.inr h)
  refine Sat.bind ((uvTryWrite_sat ho).mono (fun _ h => h) fun e he => he ▸ Bad.now trivial) fun p hp => ?_
  obtain ⟨more, hmore, ⟨n, hn, rfl⟩ | ⟨hneg, ht⟩⟩ := hp
  · exact ⟨{ hs with }, (Micros.one (.tryWrite (r := s.view) hsize hn)).trans (Micros.spill hmore)⟩
  · obtain ⟨n, t⟩ := p
    obtain rfl : t = { s with sent := s.sent ++ more } := ht
    dsimp only
    rw [if_neg (by simpa using hneg)]
    exact ⟨{ hs with }, Micros.spill (r := s.view) hmore⟩

theorem shutdown_lib (hs : Wf T s) (hd : s.destroyed = false) : Lib T s.view (s.shutdown cb) := by
  refine Sat.ite (fun _ => Lib.same hs rfl) fun hfree => ?_
  simp only [not_or, Bool.not_eq_true] at hfree
  obtain ⟨-, -, hsh, hcl⟩ := hfree
  have hnone : s.shutdownReq = none := by
    cases hreq : s.shutdownReq with
    | none => rfl
    | some req =>
      have := hs.shutdown (by rw [hreq]; rfl)
      rw [hsh] at this
      cases this
  have hpc : s.pc ≠ .destroyShutdownCb := fun h => by
    have := hs.closing (hs.destroying (by rw [h]; rfl))
    rw [hcl] at this
    cases this
  refine ioStartOut_sat.mono (fun t ht => ?_) fun e he => he ▸ Bad.now trivial
  subst ht
  refine ⟨{ hs with shutdown := fun _ => rfl, ended := fun h => ?_ }, ?_⟩
  · rw [show s.destroyed = true from h] at hd
    cases hd
  · have hview : ∀ c, (if s.pc = .destroyShutdownCb then none else some s.calls.length) = c →
        Micro T s.view { s.view with shutdown := c, active := s.view.active + 1, calls := s.view.calls ++ [.shutdown cb] } →
        Micros T s.view (State.view { s.reqRegister with
          shutdownReq := some ⟨s.nextId, cb⟩
          calls := s.calls ++ [Call.shutdown cb]
          flags := { s.flags with shutting := true, writable := false }
          pollout := true }) := fun c hc hm => by
      subst hc
      exact .one hm
    exact hview _ (if_neg hpc) (.shutdown (r := s.view) (by simp [view, reqs, shutdownId, hnone]))

theorem readStart_lib (hs : Wf T s) : Lib T s.view s.readStart := by
  refine Sat.ite (fun _ => Lib.same hs rfl) fun _ => ?_
  refine ioStartIn_sat.mono (fun t ht => ?_) fun e he => he ▸ Bad.now trivial
  obtain ⟨-, rfl⟩ := ht
  exact ⟨{ hs with }, .refl⟩

theorem readStop_eq : s.readStop = { s with
    flags := { s.flags with reading := s.readStop.flags.reading }
    readCb := s.readStop.readCb
    pollin := s.readStop.pollin } := by
  unfold readStop ioStopIn
  split
  · split
    · rfl
    · rfl
  · rfl

theorem readStop_lib (hs : Wf T s) : Lib T s.view (.ok s.readStop) := by
  rw [readStop_eq]
  exact Lib.same { hs with } rfl

theorem close_lib (hs : Wf T s) : Lib T s.view s.close := by
  refine Sat.ite (fun _ => Bad.now trivial) fun _ => ?_
  refine Sat.ite (fun _ => Bad.now trivial) fun _ => ?_
  rw [readStop_eq]
  exact Lib.same { hs with closing := fun _ => rfl } rfl

theorem streamOpen_lib (hs : Wf T s) {fd : ℤ} {r w : Bool} : Lib T s.view (s.streamOpen fd r w) :=
  streamOpen_sat.mono (fun _ ht => opened_lib hs ht) fun _ he => .plain he

theorem bind_lib (hs : Wf T s) {fd e : ℤ} : Lib T s.view (s.bind fd e) :=
  bind_sat.mono (fun _ ht => opened_lib hs ht) fun _ he => .plain he

end State

/-! ## Steps and runs -/

/-- No write is accepted once `uv__stream_destroy` has flushed the queue. -/
def Tidy (s : State) : Label → Prop
  | .write bufs send _ alloc _ => s.AcceptsWrite bufs send alloc → ¬ s.Flushed
  | _ => True

/-- No `uv_pipe_connect` while another connect request is there, no connect once
`uv__stream_destroy` is past it, and memory for the buffers of a write. -/
def Lossless (s : State) : Label → Prop
  | .tcpConnect .. => ¬ s.Flushed
  | .pipeConnect .. => s.connectReq = none ∧ ¬ s.Flushed
  | .write bufs send _ alloc _ => s.checkBeforeWrite send = true → s.AcceptsWrite bufs send alloc
  | _ => True

/-- What is outstanding and what an accepted write adds to it is in the range of `size_t`. -/
def Fits (s : State) : Label → Prop
  | .write bufs send _ alloc _ => s.AcceptsWrite bufs send alloc → s.view.outstanding + bufs.flatten.length < sizeMax
  | _ => True

/-- The counts of the step fit in an `int`. -/
def Narrow (l : Label) : Prop := ∀ o ∈ l.outs, o.Narrow

/-- The stream is being destroyed when the step is over. -/
def Dying (s : State) : Label → Prop
  | .destroy _ => True
  | _ => s.flags.closed = true

structure Keeps (T : Terms) (s : State) (l : Label) : Prop where
  tidy : T.tidy → Tidy s l
  lossless : T.lossless → Lossless s l
  bounded : T.bounded → Fits s l
  dying : T.dying → Dying s l
  narrow : T.narrow → Narrow l

theorem step_lib (hs : Wf T s) (hdt : T.dying → T.tidy) {l : Label} (hl : Keeps T s l) : Lib T s.view (step T.iovmax s l) := by
  have hd : ¬ s.destroyed = true → s.destroyed = false := by simp
  cases l with
  | «open» fd r w => exact Sat.ite (fun _ => Bad.now trivial) fun _ => State.streamOpen_lib hs
  | bind fd e => exact Sat.ite (fun _ => Bad.now trivial) fun _ => State.bind_lib hs
  | tcpConnect cb sock r => exact Sat.ite (fun _ => Bad.now trivial) fun h => State.tcpConnect_lib hs (hd h) hl.lossless
  | pipeConnect cb sock r =>
    exact Sat.ite (fun _ => Bad.now trivial) fun h => State.pipeConnect_lib hs (hd h) hl.lossless
  | write bufs send cb alloc outs =>
    exact Sat.ite (fun _ => Bad.now trivial) fun _ => State.write2_lib hs hl.dying hdt hl.tidy hl.lossless hl.bounded hl.narrow
  | tryWrite bufs o => exact Sat.ite (fun _ => Bad.now trivial) fun _ => State.tryWrite2_lib hs fun h => hl.narrow h o (List.mem_singleton_self o)
  | shutdown cb => exact Sat.ite (fun _ => Bad.now trivial) fun h => State.shutdown_lib hs (hd h)
  | readStart => exact Sat.ite (fun _ => Bad.now trivial) fun _ => State.readStart_lib hs
  | readStop => exact Sat.ite (fun _ => Bad.now trivial) fun _ => State.readStop_lib hs
  | close => exact Sat.ite (fun _ => Bad.now trivial) fun _ => State.close_lib hs
  | io ev env =>
    refine Sat.ite (fun h => ?_) fun _ => Bad.now trivial
    exact State.streamIo_lib hs h.1 hl.dying hl.narrow
  | runPending env =>
    refine Sat.ite (fun h => ?_) fun _ => Bad.now trivial
    exact State.streamIo_lib (s := { s with pending := .unlinked }) { hs with } h.1 hl.dying hl.narrow
  | ret env => exact State.ret_lib hs hl.dying hl.narrow
  | destroy env =>
    refine Sat.ite (fun h => ?_) fun _ => Bad.now trivial
    refine State.streamDestroy_lib hs h.1 h.2.1 (hd fun hend => ?_)
    have := (hs.ended hend).2.1
    rw [h.2.2] at this
    cases this

theorem inductive_of_micros {T : Terms} {I : Reqs → Prop} (hnd : ¬ T.dying) {C : State → Label → Prop}
    (hC : ∀ s l, C s l → Keeps T s l) (hinit : ∀ type ipc b, I (streamInit type ipc b).view)
    (hI : ∀ r r', Micro T r r' → I r → I r') :
    ((system T.iovmax).restrict C).Inductive fun s => Wf T s ∧ I s.view where
  init := by
    intro s ⟨type, ipc, b, hs⟩
    subst hs
    exact ⟨.live (.inl rfl) nofun rfl rfl rfl, hinit type ipc b⟩
  step := by
    intro s l t ⟨hw, hi⟩ ⟨hc, hst⟩
    obtain ⟨ht, hm⟩ := (step_lib hw (fun h => absurd h hnd) (hC s l hc)).of_ok hst
    exact ⟨ht, hm.keep hI hi⟩

end Libuv.L3.Stream
