import Libuv.L3Stream.Lasting

/-!
# Requests without a callback

The callback of a write, a connect or a shutdown request may be `NULL`, and where a request
is completed it is tested: in `uv__write_callbacks`, `uv__drain` and `uv__stream_connect`.
`uv__stream_destroy` calls the callbacks of a connect and of a shutdown request that are still
pending without the test.

A call of `NULL` is a fault like others. What tells it apart is that the step does not fail from
the state in which every request has a callback (`State.given`).

* `no_nullCall`: runs in which `uv__stream_destroy` finds the callbacks it calls.
* `destroy_nullCall`, `destroy_calls_null`: it calls `NULL` where it does not.
-/
namespace Libuv.L3.Stream

open List Option

variable {s t : State} {iovmax : ℕ} {env : Env} {r r' : Reqs} {T : Terms}

/-! ## Calls of `NULL` -/

def WriteReq.given (q : WriteReq) : WriteReq := { q with cb := true }

def Req.given (r : Req) : Req := { r with cb := true }

/-- The stream with a callback for each of its requests. -/
def State.given (s : State) : State :=
  { s with
    connectReq := s.connectReq.map Req.given
    shutdownReq := s.shutdownReq.map Req.given
    writeQueue := s.writeQueue.map WriteReq.given
    writeCompletedQueue := s.writeCompletedQueue.map WriteReq.given
    pq := s.pq.map WriteReq.given }

/-- The library calls a `NULL` callback: its code fails, and does not if every request has one. -/
def NullCall (iovmax : ℕ) (s : State) (l : Label) : Prop :=
  l.isCall = false ∧ step iovmax s l = .error .crash ∧ ∃ t, step iovmax s.given l = .ok t

/-! ## What is registered -/

/-- The requests whose callbacks have not started. -/
def Reqs.waiting (r : Reqs) : ℕ :=
  r.connect.toList.length + r.shutdown.toList.length + r.queue.length + r.completed.length + r.running.length

def Registered (r : Reqs) : Prop := r.waiting ≤ r.active

theorem Registered.micro (hm : Micro T r r') (h : Registered r) : Registered r' := by
  unfold Registered Reqs.waiting at *
  cases hm with
  | submit | flush =>
    simp only [length_append, length_map, length_singleton, length_nil] at h ⊢
    omega
  | leak => exact Nat.le_succ_of_le h
  | tryWrite | spill => exact h
  | wrote hq | finish hq | fail hq | pop hq =>
    simp only [hq, length_cons, length_append, length_nil] at h ⊢
    omega
  | begin hr =>
    simp only [hr, length_nil] at h ⊢
    omega
  | @lose cb c hp hc =>
    have hle : c.toList.length ≤ 1 := by cases c <;> simp
    simp only at h ⊢
    omega
  | connect hc | shutdown hc | connected hc | shut hc =>
    simp only [hc, toList_none, toList_some, length_nil, length_singleton] at h ⊢
    omega

/-- A shutdown of a stream that is not closing has its request. -/
def Awaited (c : WriteEnd) : Prop := c.shutting = true → c.closing = false → c.shutdownReq.isSome = true

theorem uvWrite_awaited {outs : List Outcome} (hs : Awaited s.writeEnd) : Leads Awaited (s.uvWrite iovmax outs) := by
  refine (State.uvWrite_sat (T := anyTerms iovmax) (c := none) (d := none) id nofun).mono (fun t ht => ?_) fun _ _ => trivial
  rw [ht.2.1.frame]
  exact hs

theorem awaited_lasting {C : State → Label → Prop} : Lasting iovmax C Awaited where
  flush _ hs := hs
  drain s t ht hs := by
    have hc : t.flags.closing = s.flags.closing := by
      rw [ht.frame]
    intro hsh hcl
    obtain ⟨h1, h2, -⟩ := ht.same hsh
    have := hs h2 (hc.symm.trans hcl)
    rwa [show t.writeEnd.shutdownReq = s.writeEnd.shutdownReq from h1]
  closing _ _ := nofun
  unshut c hc _ := fun _ h => by
    rw [show c.closing = false from h] at hc
    cases hc
  shutdown _ _ _ := fun _ _ => rfl
  uvWrite s outs hs := uvWrite_awaited hs
  write s bufs send cb alloc outs _ hs := by
    refine Sat.ite (fun _ => trivial) fun _ => Sat.ite (fun _ => hs) fun _ => Sat.ite (fun _ => hs) fun _ => ?_
    refine Sat.ite (fun _ => hs) fun _ => Sat.ite (fun _ => uvWrite_awaited hs) fun _ => ?_
    exact Sat.ite (fun _ => trivial) fun _ => Sat.ite (fun _ => trivial) fun _ => hs

/-! ## Completion -/

/-- The code does not fail, but at an assertion about `write_queue_size`. -/
def Safe (x : Except Fault State) : Prop := Sat (fun _ => True) (· ≠ .crash) x

/-- A shutdown request that is pending has a callback. -/
def State.ShutdownGiven (s : State) : Prop := ∀ q ∈ s.shutdownReq, q.cb = true

namespace State

theorem reqUnregister_safe (ha : 0 < s.activeReqs) :
    Sat (fun t => t = { s with activeReqs := s.activeReqs - 1 }) (· ≠ .crash) s.reqUnregister :=
  Sat.ite (fun h => absurd h (Nat.ne_of_gt ha)) fun _ => rfl

theorem active_of_shutdown (hr : Registered s.all) {q : Req} (hq : s.shutdownReq = some q) : 0 < s.activeReqs := by
  have hd : s.all.shutdown = some q.id := congrArg (Option.map Req.id) hq
  have ha : s.all.active = s.activeReqs := rfl
  unfold Registered Reqs.waiting at hr
  rw [hd, toList_some, length_singleton] at hr
  omega

theorem drain_safe (hr : Registered s.all) (ha : Awaited s.writeEnd) (hq : s.writeQueue = []) : Safe (s.drain env) := by
  refine Sat.ite (fun h => absurd hq h) fun _ => ?_
  rw [ioStopOut_eq]
  refine Sat.ite (fun hsh => ?_) fun _ => trivial
  obtain ⟨q, hreq⟩ := isSome_iff_exists.1 (ha hsh.1 (Bool.not_eq_true _ ▸ hsh.2.1))
  split
  · next hnone =>
    rw [show s.writeEnd.shutdownReq = none from hnone] at hreq
    cases hreq
  · have hpos : 0 < s.activeReqs := active_of_shutdown hr hreq
    refine Sat.bind (reqUnregister_safe ?_) fun _ _ => trivial
    exact hpos

theorem destroyEnd_safe : Safe s.destroyEnd := Sat.ite (fun _ => nofun) fun _ => trivial

theorem destroyShutdown_safe (hr : Registered s.all) (hcb : s.ShutdownGiven) : Safe s.destroyShutdown := by
  unfold destroyShutdown
  cases hq : s.shutdownReq with
  | none => exact destroyEnd_safe
  | some q =>
    refine Sat.bind (reqUnregister_safe (active_of_shutdown hr hq)) fun _ _ => ?_
    exact Sat.ite (fun _ => trivial) fun h => absurd (hcb q hq) h

theorem afterCallbacks_safe {caller : Caller} (hr : Registered s.all) (ha : Awaited s.writeEnd)
    (hcb : caller = .destroy → s.ShutdownGiven) : Safe (s.afterCallbacks caller env) := by
  cases caller with
  | io => exact Sat.ite (fun hq => drain_safe hr ha hq) fun _ => trivial
  | connect => exact trivial
  | destroy => exact destroyShutdown_safe hr (hcb rfl)

theorem popCompleted_safe {q : WriteReq} {rest : List WriteReq} (hr : Registered s.all) (hq : s.pq = q :: rest) :
    Sat (fun t => Popped s t ∧ t.pq = rest ∧ Registered t.all) (· ≠ .crash) (s.popCompleted q rest) := by
  have hkeep := popCompleted_sat (T := anyTerms 0) (c := s.connectId) (d := s.shutdownId) hq
  have hpos : 0 < s.activeReqs := by
    have hrun : s.all.running = q :: rest := hq
    have ha : s.all.active = s.activeReqs := rfl
    unfold Registered Reqs.waiting at hr
    rw [hrun, length_cons] at hr
    omega
  have hsafe : Safe (s.popCompleted q rest) := by
    refine Sat.bind (reqUnregister_safe hpos) fun t _ => ?_
    split
    · exact trivial
    · exact Sat.ite (fun _ => nofun) fun _ => trivial
  cases hx : s.popCompleted q rest with
  | ok t =>
    obtain ⟨hp, hrest, hm⟩ := hkeep.of_ok hx
    rw [hp.all] at hm
    exact ⟨hp, hrest, hm.keep (fun _ _ => Registered.micro) hr⟩
  | error e => exact hsafe.of_error hx

/-- **`uv__write_callbacks`** does not fail, if `uv__stream_destroy` finds a callback behind it. -/
theorem runCallbacks_safe {caller : Caller} {l : List WriteReq} (hr : Registered s.all) (ha : Awaited s.writeEnd)
    (hcb : caller = .destroy → s.ShutdownGiven) (hl : s.pq = l) : Safe (runCallbacks caller env l s) := by
  induction l generalizing s with
  | nil => exact afterCallbacks_safe hr ha hcb
  | cons q rest ih =>
    refine Sat.bind (popCompleted_safe hr hl) fun t ht => ?_
    obtain ⟨hp, hrest, hr'⟩ := ht
    have hframe := hp
    refine Sat.ite (fun _ => trivial) fun _ => ih hr' (hp.writeEnd ▸ ha) (fun hc => ?_) hrest
    rw [hframe]
    exact hcb hc

theorem writeCallbacks_safe {caller : Caller} (hr : Registered s.all) (ha : Awaited s.writeEnd) (hpq : s.pq = [])
    (hcb : caller = .destroy → s.ShutdownGiven) : Safe (s.writeCallbacks caller env) :=
  runCallbacks_safe (s := { s with pq := s.writeCompletedQueue, writeCompletedQueue := [] })
    (Registered.micro (T := anyTerms 0) (.begin (r := s.all) hpq) hr) ha hcb rfl

theorem flush_safe {caller : Caller} (hr : Registered s.all) (ha : Awaited s.writeEnd) (hpq : s.pq = [])
    (hcb : caller = .destroy → s.ShutdownGiven) : Safe ((s.flushWriteQueue UV_ECANCELED).writeCallbacks caller env) :=
  writeCallbacks_safe (s := s.flushWriteQueue UV_ECANCELED) (Registered.micro (T := anyTerms 0) (.flush (r := s.all)) hr) ha hpq hcb

theorem afterConnect_safe {error : ℤ} (hr : Registered s.all) (ha : Awaited s.writeEnd) (hpq : s.pq = []) :
    Safe (s.afterConnect error env) :=
  Sat.ite (fun _ => trivial) fun _ => Sat.ite (fun _ => flush_safe hr ha hpq nofun) fun _ => trivial

end State

/-! ## The same code with callbacks -/

/-- Where `x` fails, so does `y`. -/
def Agree (x y : Except Fault State) : Prop := x = .error .crash → ∀ t, y ≠ .ok t

variable {x y : Except Fault State}

theorem Agree.safe (h : Safe x) : Agree x y := fun hx => absurd rfl (h.of_error hx)

theorem Agree.error {e : Fault} : Agree x (.error e) := fun _ _ => nofun

theorem Agree.ok : Agree (.ok s) y := nofun

theorem Agree.ite {c : Prop} [Decidable c] {x' y' : Except Fault State} (hx : c → Agree x y) (hy : ¬ c → Agree x' y') :
    Agree (if c then x else x') (if c then y else y') := by
  split
  · exact hx ‹c›
  · exact hy ‹¬ c›

theorem Agree.bind {f g : State → Except Fault State} (h : y = x.map State.given)
    (hf : ∀ a, x = .ok a → Agree (f a) (g a.given)) : Agree (x >>= f) (y >>= g) := by
  subst h
  cases hx : x with
  | ok a => exact hf a hx
  | error e => exact fun _ _ => nofun

namespace State

theorem ioStartOut_given : s.given.ioStartOut = s.ioStartOut.map given := by
  unfold ioStartOut
  rw [apply_ite (Except.map given)]
  rfl

theorem ioStartIn_given : s.given.ioStartIn = s.ioStartIn.map given := by
  unfold ioStartIn
  rw [apply_ite (Except.map given)]
  rfl

theorem uvTryWrite_given {id : ℕ} {bufs : List Buf} {o : Outcome} :
    s.given.uvTryWrite iovmax id bufs o = (s.uvTryWrite iovmax id bufs o).map fun p => (p.1, p.2.given) := by
  unfold uvTryWrite
  cases o with
  | wrote n =>
    dsimp only
    generalize CInt.ofNat n = m
    rw [apply_ite (Except.map _)]
    rfl
  | again => rfl
  | error e =>
    rw [apply_ite (Except.map _)]
    rfl

theorem writeReqUpdate_given {q : WriteReq} {n : ℕ} : s.given.writeReqUpdate q.given n =
    (s.writeReqUpdate q n).map fun p => (p.1, p.2.1.given, p.2.2.given) := by
  have hrem : q.given.remaining = q.remaining := rfl
  unfold writeReqUpdate
  rw [apply_ite (Except.map _), hrem]
  cases advance n q.remaining with
  | none | some p => rfl

theorem writeReqFinish_given {q : WriteReq} {rest : List WriteReq} :
    s.given.writeReqFinish q.given (rest.map WriteReq.given) = (s.writeReqFinish q rest).given := by
  have hq : q.given.finished = q.finished.given := by
    unfold WriteReq.finished
    rw [apply_ite WriteReq.given]
    rfl
  rw [writeReqFinish_eq, writeReqFinish_eq, hq]
  simp [given, ioFeed_pending]

theorem ioStopOut_given : s.given.ioStopOut = s.ioStopOut.given := by
  unfold ioStopOut
  rw [apply_ite given]
  rfl

variable {outs : List Outcome} {ev : Events}

theorem uvWriteLoop_given : uvWriteLoop iovmax outs s.given = (uvWriteLoop iovmax outs s).map given := by
  induction outs generalizing s with
  | nil =>
    unfold uvWriteLoop
    rw [show s.given.writeQueue = s.writeQueue.map WriteReq.given from rfl]
    cases hq : s.writeQueue with
    | nil => simp [Except.map]
    | cons req rest => rfl
  | cons o outs ih =>
    unfold uvWriteLoop
    rw [show s.given.writeQueue = s.writeQueue.map WriteReq.given from rfl]
    cases hq : s.writeQueue with
    | nil => simp [Except.map]
    | cons req rest =>
      rw [map_cons]
      dsimp only
      rw [show req.given.remaining = req.remaining from rfl, show req.given.id = req.id from rfl, uvTryWrite_given]
      cases ht : s.uvTryWrite iovmax req.id req.remaining o with
      | error e => rfl
      | ok p =>
        obtain ⟨n, u⟩ := p
        show (if 0 ≤ n then _ else _) = Except.map given (if 0 ≤ n then _ else _)
        by_cases hn : 0 ≤ n
        · rw [if_pos hn, if_pos hn]
          show (u.given.writeReqUpdate (WriteReq.given { req with sendHandle := false }) n.toNat >>= _) = _
          rw [writeReqUpdate_given]
          cases u.writeReqUpdate { req with sendHandle := false } n.toNat with
          | error e => rfl
          | ok p =>
            obtain ⟨done, q, v⟩ := p
            show (if done = true then _ else _) = Except.map given (if done = true then _ else _)
            by_cases hd : done = true
            · rw [if_pos hd, if_pos hd]
              exact congrArg Except.ok writeReqFinish_given
            · rw [if_neg hd, if_neg hd, apply_ite (Except.map given), ← ih, ← ioStartOut_given]
              rfl
        · rw [if_neg hn, if_neg hn, apply_ite (Except.map given), apply_ite (Except.map given), ← ih, ← ioStartOut_given]
          refine if_congr Iff.rfl ?_ rfl
          show Except.ok (u.given.writeReqFinish (WriteReq.given { req with error := n }) _).ioStopOut = _
          rw [writeReqFinish_given, ioStopOut_given]
          rfl

theorem uvWrite_given : s.given.uvWrite iovmax outs = (s.uvWrite iovmax outs).map given := by
  unfold uvWrite
  rw [apply_ite (Except.map given), uvWriteLoop_given]
  rfl

/-! ## Reading -/

theorem streamEof_readCb : s.streamEof.readCb = s.readCb := by
  unfold streamEof ioStopIn
  split <;> rfl

theorem callRead_agree {u : State} {next : Pc} (h : u.readCb = s.readCb) : Agree (s.callRead next) (u.callRead next) := by
  unfold callRead
  rw [h]
  exact Agree.ite (fun _ => .ok) fun _ => .error

/-- What completions rest on, where no callbacks of writes are running. -/
structure Ready (s : State) : Prop where
  registered : Registered s.all
  awaited : Awaited s.writeEnd
  running : s.pq = []

theorem Ready.reads (hs : s.Ready) (ht : Reads s t) : t.Ready where
  registered := reads_all ht ▸ hs.registered
  awaited := ht.writeEnd ▸ hs.awaited
  running := by
    rw [ht.frame]
    exact hs.running

theorem Ready.wrote (hs : s.Ready) (ht : s.uvWrite iovmax outs = .ok t) : t.Ready := by
  obtain ⟨-, hw, hm⟩ := (uvWrite_sat (T := anyTerms iovmax) (c := s.connectId) (d := s.shutdownId) id nofun).of_ok ht
  refine ⟨?_, (uvWrite_awaited hs.awaited).of_ok ht, ?_⟩
  · have hids : t.reqs s.connectId s.shutdownId = t.all := by
      rw [hw.frame]
      rfl
    rw [hids] at hm
    exact hm.keep (fun _ _ => Registered.micro) hs.registered
  · rw [hw.frame]
    exact hs.running

theorem afterEof_agree (hs : s.Ready) : Agree (s.afterEof iovmax ev env) (s.given.afterEof iovmax ev env) := by
  refine Agree.ite (fun _ => .ok) fun _ => Agree.ite (fun _ => Agree.bind uvWrite_given fun u hu => ?_) fun _ => .ok
  have hu := hs.wrote hu
  exact .safe (writeCallbacks_safe hu.registered hu.awaited hu.running nofun)

theorem afterRead_agree (hs : s.Ready) : Agree (s.afterRead iovmax ev env) (s.given.afterRead iovmax ev env) := by
  refine Agree.ite (fun _ => .ok) fun _ => Agree.ite (fun _ => callRead_agree ?_) fun _ => afterEof_agree hs
  rw [streamEof_readCb, streamEof_readCb]
  rfl

theorem readLoop_agree {count : ℕ} (hs : s.Ready) :
    Agree (s.readLoop iovmax count ev env) (s.given.readLoop iovmax count ev env) := by
  exact Agree.ite (fun _ => .ok) fun _ => afterRead_agree hs

theorem afterAlloc_agree {count : ℕ} : Agree (s.afterAlloc count ev env) (s.given.afterAlloc count ev env) := by
  refine Agree.ite (fun _ => callRead_agree rfl) fun _ => Agree.ite (fun _ => .error) fun _ => ?_
  cases env.read with
  | again =>
    refine Agree.ite (fun _ => Agree.bind ioStartIn_given fun u _ => ?_) fun _ => callRead_agree rfl
    exact callRead_agree rfl
  | error => exact callRead_agree rfl
  | eof =>
    refine callRead_agree ?_
    rw [streamEof_readCb, streamEof_readCb]
    rfl
  | data short cmsgError => exact Agree.ite (fun _ => callRead_agree rfl) fun _ => callRead_agree rfl

theorem afterReadCb_agree {next : ReadNext} (hs : s.Ready) :
    Agree (s.afterReadCb iovmax next ev env) (s.given.afterReadCb iovmax next ev env) := by
  cases next with
  | stop => exact afterRead_agree hs
  | error =>
    have hstop :
        (if s.flags.reading = true then ioStopIn { s.given with flags := { s.flags with reading := false } } else s.given) =
          given (if s.flags.reading = true then ioStopIn { s with flags := { s.flags with reading := false } } else s) := by
      unfold ioStopIn
      rw [apply_ite given, apply_ite given]
      rfl
    refine Eq.mpr (congrArg (fun u => Agree _ (u.afterRead iovmax ev env)) hstop) (afterRead_agree ?_)
    split
    · unfold ioStopIn
      split
      · exact hs.reads ⟨rfl, id, fun _ => id⟩
      · exact hs.reads ⟨rfl, id, fun _ h => by cases h⟩
    · exact hs
  | short => exact afterRead_agree (s := { s with flags := { s.flags with readPartial := true } }) (hs.reads ⟨rfl, id, fun _ => id⟩)
  | again count => exact readLoop_agree hs

/-! ## Events and destroying -/

theorem active_of_connect (hr : Registered s.all) {q : Req} (hq : s.connectReq = some q) : 0 < s.activeReqs := by
  have hc : s.all.connect = some q.id := congrArg (Option.map Req.id) hq
  have ha : s.all.active = s.activeReqs := rfl
  unfold Registered Reqs.waiting at hr
  rw [hc, toList_some, length_singleton] at hr
  omega

theorem streamConnect_agree {q : Req} (hs : s.Ready) (hq : s.connectReq = some q) :
    Agree (s.streamConnect q env) (s.given.streamConnect q.given env) := by
  refine Agree.ite (fun _ => .error) fun _ => .safe ?_
  refine Sat.ite (fun _ => nofun) fun _ => Sat.ite (fun _ => trivial) fun _ => ?_
  have hpos : 0 < s.activeReqs := active_of_connect hs.registered hq
  refine Sat.bind (reqUnregister_safe ?_) fun t ht => ?_
  · exact hpos
  subst ht
  have hid : s.connectId = some q.id := congrArg (Option.map Req.id) hq
  have hr : Registered { s.all with
      connect := none
      active := s.activeReqs - 1
      called := s.called ++ [(q.id, s.connectError env)] } :=
    Registered.micro (T := anyTerms 0) (.connected hid hpos nofun) hs.registered
  refine Sat.ite (fun _ => trivial) fun _ => ?_
  rw [ioStopOut_eq]
  split
  · exact afterConnect_safe hr hs.awaited hs.running
  · exact afterConnect_safe hr hs.awaited hs.running

theorem Ready.unconnected (hs : s.Ready) : Ready { s with connectReq := none } where
  registered := by
    have hr := hs.registered
    unfold Registered Reqs.waiting at *
    exact le_trans (by simp [all, reqs, connectId, shutdownId]) hr
  awaited := hs.awaited
  running := hs.running

theorem streamIo_agree (hs : s.Ready) : Agree (s.streamIo iovmax ev env) (s.given.streamIo iovmax ev env) := by
  refine Agree.ite (fun _ => .error) fun _ => ?_
  rw [show s.given.connectReq = s.connectReq.map Req.given from rfl]
  cases hq : s.connectReq with
  | some q => exact streamConnect_agree hs hq
  | none =>
    refine Agree.ite (fun _ => .error) fun _ => Agree.ite (fun _ => ?_) fun _ => afterRead_agree hs
    exact readLoop_agree (s := { s with connectReq := none, flags := { s.flags with readPartial := false } })
      (hs.unconnected.reads ⟨rfl, id, fun _ => id⟩)

/-- **`uv__stream_destroy`** with callbacks where it does not test for them. -/
theorem streamDestroy_agree (hs : s.Ready) (hc : ∀ q ∈ s.connectReq, q.cb = true) (hsh : s.ShutdownGiven) :
    Agree (s.streamDestroy env) (s.given.streamDestroy env) := by
  refine Agree.ite (fun _ => .error) fun _ => .safe ?_
  cases hq : s.connectReq with
  | some q =>
    have hpos : 0 < s.activeReqs := active_of_connect hs.registered hq
    refine Sat.bind (reqUnregister_safe hpos) fun t ht => ?_
    exact Sat.ite (fun _ => trivial) fun h => absurd (hc q hq) h
  | none =>
    have hn := hs.unconnected
    exact flush_safe (s := { s with connectReq := none, flags := { s.flags with closed := true } }) hn.registered hn.awaited
      hn.running fun _ => hsh

theorem ret_agree {T : Terms} (hw : Wf T s) (hr : Registered s.view) (ha : Awaited s.writeEnd)
    (hsh : s.pc.destroying = true → s.ShutdownGiven) : Agree (s.ret iovmax env) (s.given.ret iovmax env) := by
  have hready {pc : Pc} (hpc : s.pc = pc) (hidle : pc ≠ .idle) (hwrite : ∀ c, pc ≠ .writeCb c) (hpd : pc.destroying = false) :
      s.Ready := by
    obtain ⟨-, hpq, -, hview⟩ := hw.called hpc hidle hwrite hpd
    exact ⟨hview ▸ hr, ha, hpq⟩
  unfold ret
  rw [show s.given.pc = s.pc from rfl]
  split
  · exact .error
  · next error hpc =>
    have hs := hready hpc (by simp) (by simp) rfl
    exact .safe (afterConnect_safe hs.registered hs.awaited hs.running)
  · exact afterAlloc_agree
  · next nxt ev hpc => exact afterReadCb_agree (hready hpc (by simp) (by simp) rfl)
  · next ev hpc => exact afterEof_agree (hready hpc (by simp) (by simp) rfl)
  · next caller hpc =>
    rw [view_eq_all (by simp [hpc]) (by simp [hpc])] at hr
    refine .safe (runCallbacks_safe hr ha (fun hc => hsh ?_) rfl)
    rw [hpc, hc]
    rfl
  · exact .ok
  · next hpc =>
    have hpq : s.pq = [] := hw.running.resolve_right (by simp [hpc])
    have hr' : Registered (State.all { s with connectReq := none }) := by
      rw [view, if_pos hpc, if_neg (by simp [hpc])] at hr
      exact hr
    exact .safe (flush_safe (s := { s with connectReq := none }) hr' ha hpq fun _ => hsh (by rw [hpc]; rfl))
  · exact .safe destroyEnd_safe

end State

/-! ## Runs -/

/-- `uv__stream_destroy` finds no request without a callback where it does not test for it. -/
def DestroyGiven (s : State) : Label → Prop
  | .destroy _ => (∀ q ∈ s.connectReq, q.cb = true) ∧ s.ShutdownGiven
  | .ret _ => s.pc.destroying = true → s.ShutdownGiven
  | _ => True

/-- **One step** of the library fails with the requests as they are only where it fails with
callbacks for all of them. -/
theorem step_agree {l : Label} (hw : Wf T s) (hr : Registered s.view) (ha : Awaited s.writeEnd) (hl : DestroyGiven s l)
    (hcall : l.isCall = false) : Agree (step iovmax s l) (step iovmax s.given l) := by
  have hidle : s.pc = .idle → s.Ready := fun hpc =>
    ⟨State.view_eq_all (by rw [hpc]; nofun) (by rw [hpc]; nofun) ▸ hr, ha, hw.running.resolve_right fun ⟨c, hc⟩ => by
      rw [hpc] at hc
      cases hc⟩
  cases l with
  | io ev env => exact Agree.ite (fun h => State.streamIo_agree (hidle h.1)) fun _ => .error
  | runPending env =>
    refine Agree.ite (fun h => ?_) fun _ => .error
    have hs := hidle h.1
    exact State.streamIo_agree (s := { s with pending := .unlinked }) ⟨hs.registered, hs.awaited, hs.running⟩
  | ret env => exact State.ret_agree hw hr ha hl
  | destroy env => exact Agree.ite (fun h => State.streamDestroy_agree (hidle h.1) hl.1 hl.2) fun _ => .error
  | _ => cases hcall

theorem registered_run {C : State → Label → Prop} : ((system iovmax).restrict C).Inductive
    fun s => (Wf (anyTerms iovmax) s ∧ Registered s.view) ∧ Awaited s.writeEnd :=
  awaited_lasting.run (fun _ _ _ => nofun) (fun _ _ _ => Nat.le_refl 0) fun _ _ hm => Registered.micro hm

/-- `uv__stream_destroy` calls the callback of its connect request, and of its shutdown request
where nothing is completed before it. -/
theorem destroy_nullCall {C : State → Label → Prop} (h : ((system iovmax).restrict C).Reachable s) (hpc : s.pc = .idle)
    (hcl : s.flags.closing = true) (hclosed : s.flags.closed = false) (hio : ¬ (s.pollin = true ∨ s.pollout = true)) {q : Req}
    (hcb : q.cb = false) (hq : s.connectReq = some q ∨
      s.connectReq = none ∧ s.writeQueue = [] ∧ s.writeCompletedQueue = [] ∧ s.shutdownReq = some q) :
    NullCall iovmax s (.destroy env) := by
  obtain ⟨⟨-, hr⟩, -⟩ := registered_run.reachable h
  rw [State.view_eq_all (by rw [hpc]; nofun) (by rw [hpc]; nofun)] at hr
  have hpos : s.activeReqs ≠ 0 := by
    rcases hq with hq | ⟨-, -, -, hq⟩
    · exact (State.active_of_connect hr hq).ne'
    · exact (State.active_of_shutdown hr hq).ne'
  have hstep : ∀ u : State, u.pc = s.pc → u.flags = s.flags → step iovmax u (.destroy env) = u.streamDestroy env := by
    intro u h1 h2
    exact if_pos ⟨h1.trans hpc, h2 ▸ hcl, h2 ▸ hclosed⟩
  refine ⟨rfl, ?_, ?_⟩
  · rw [hstep s rfl rfl]
    rcases hq with hq | ⟨hq, hw, hc, hsh⟩
    · simp [State.streamDestroy, hio, hq, State.reqUnregister, hpos, hcb, bind, Except.bind]
    · simp [State.streamDestroy, State.destroyWrites, State.flushWriteQueue, State.writeCallbacks, State.runCallbacks,
        State.afterCallbacks, State.destroyShutdown, hio, hq, hw, hc, hsh, State.reqUnregister, hpos, hcb, bind, Except.bind]
  · rw [hstep s.given rfl rfl]
    rcases hq with hq | ⟨hq, hw, hc, hsh⟩
    · simp [State.given, Req.given, State.streamDestroy, hio, hq, State.reqUnregister, hpos, bind, Except.bind]
    · simp [State.given, Req.given, State.streamDestroy, State.destroyWrites, State.flushWriteQueue, State.writeCallbacks,
        State.runCallbacks, State.afterCallbacks, State.destroyShutdown, hio, hq, hw, hc, hsh, State.reqUnregister, hpos, bind,
        Except.bind]

/-- **No `NULL` callback** is called in a run in which `uv__stream_destroy` neither runs nor goes
on while its connect or its shutdown request is pending without a callback. -/
theorem no_nullCall (h : ((system iovmax).restrict DestroyGiven).Reachable s) {l : Label} (hl : DestroyGiven s l) :
    ¬ NullCall iovmax s l := by
  obtain ⟨⟨hw, hr⟩, ha⟩ := registered_run.reachable h
  intro ⟨hcall, hcrash, t, ht⟩
  exact step_agree hw hr ha hl hcall hcrash t ht

/-- Requests without callbacks that are all completed before the stream is closed. -/
theorem no_nullCall_completed : ∃ s, ((system 1024).restrict DestroyGiven).Reachable s ∧ s.flags.closing = true ∧
    s.called = [(0, 0), (1, 0), (2, 0)] ∧ ¬ NullCall 1024 s (.destroy ⟨[], 0, 0, .again, true⟩) := by
  have h0 : ((system 1024).restrict DestroyGiven).Reachable (streamInit .tcp false false) := .init ⟨_, _, _, rfl⟩
  have h1 := h0.next (.tcpConnect false (.fd 3) .inProgress) ⟨trivial, rfl⟩
  have h2 := h1.next (.io ⟨false, true, false, false⟩ ⟨[], 0, 0, .again, true⟩) ⟨trivial, rfl⟩
  have h3 := h2.next (.write [[1]] none false true [.wrote 1]) ⟨trivial, rfl⟩
  have h4 := h3.next (.shutdown false) ⟨trivial, rfl⟩
  have h5 := h4.next (.io ⟨false, true, false, false⟩ ⟨[], 0, 0, .again, true⟩) ⟨trivial, rfl⟩
  have h6 := h5.next .close ⟨trivial, rfl⟩
  exact ⟨_, h6, rfl, rfl, no_nullCall h6 (l := .destroy ⟨[], 0, 0, .again, true⟩) ⟨nofun, nofun⟩⟩

/-- A stream that is closed while its connect, or its shutdown, is pending without a callback:
`uv__stream_destroy` calls `NULL`. -/
theorem destroy_calls_null :
    (∃ s, (system 1024).Reachable s ∧ s.connectReq = some ⟨0, false⟩ ∧ NullCall 1024 s (.destroy ⟨[], 0, 0, .again, true⟩)) ∧
    ∃ s, (system 1024).Reachable s ∧ s.shutdownReq = some ⟨0, false⟩ ∧ NullCall 1024 s (.destroy ⟨[], 0, 0, .again, true⟩) := by
  have h0 : (system 1024).Reachable (streamInit .tcp false false) := .init ⟨_, _, _, rfl⟩
  refine ⟨?_, ?_⟩
  · have h1 := h0.next (.tcpConnect false (.fd 3) .inProgress) rfl
    have h2 := h1.next .close rfl
    exact ⟨_, h2, rfl, rfl, rfl, _, rfl⟩
  · have h1 := h0.next (.open 3 true true) rfl
    have h2 := h1.next (.shutdown false) rfl
    have h3 := h2.next .close rfl
    exact ⟨_, h3, rfl, rfl, rfl, _, rfl⟩

end Libuv.L3.Stream
