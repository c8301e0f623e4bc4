import Libuv.L3Stream.Completion

/-!
# What a stream waits for

A stream with a queued write or a shutdown waits for `POLLOUT` or is in the pending queue:
`uv__write` and `uv_shutdown` see to it, and `uv__drain` stops `POLLOUT` where nothing is
left. `uv__stream_connect` stops it too, for a connect that failed or with no write queued,
also where a shutdown waits; and with writes queued it leaves `POLLOUT` as it is, stopped
where `uv__drain` came behind a connect from a callback.

* `progress`: the runs without such a connect.
* `stranded`: a shutdown, and a write, that nothing will wake up.
-/
namespace Libuv.L3.Stream

variable {s t : State} {iovmax : ℕ} {env : Env}

/-- The watcher waits for `POLLOUT`, or is in the pending queue. -/
def State.Armed (s : State) : Prop := s.pollout = true ∨ s.pending = .queued

/-- The callback of a connect that failed; the write queue is flushed behind it. -/
def Pc.refused : Pc → Bool
  | connectCb e => decide (e < 0)
  | _ => false

/-- What a stream that is not closing keeps, in the callback `pc`. Behind the callbacks of
`uv__stream_io`'s writes comes `uv__drain`. -/
structure Alive (pc : Pc) (s : State) : Prop where
  linked : s.pending ≠ .stale
  shut : s.flags.shutting = true → s.flags.shut = false
  fd : s.writeQueue ≠ [] → s.fd ≠ -1
  armed : s.connectReq = none →
    s.writeQueue ≠ [] ∧ pc.refused = false ∨ s.flags.shutting = true ∧ pc ≠ .writeCb .io → s.Armed

def Going (pc : Pc) (s : State) : Prop := s.flags.closing = false → Alive pc s

def Goes (x : Except Fault State) : Prop := Sat (fun t => Going t.pc t) (fun _ => True) x

theorem Going.full {pc q : Pc} (hs : Going pc s) (h1 : pc.refused = false) (h2 : pc ≠ .writeCb .io) : Going q s := fun hc =>
  { hs hc with armed := fun hreq hw => (hs hc).armed hreq (hw.imp (fun h => ⟨h.1, h1⟩) fun h => ⟨h.1, h2⟩) }

theorem ioFeed_linked (h : s.pending ≠ .stale) : s.ioFeed.pending = .queued := by
  rw [State.ioFeed_pending]
  cases hp : s.pending with
  | unlinked | queued => rfl
  | stale => exact absurd hp h

theorem Wrote.waits (h : Wrote s t) (hl : s.pending ≠ .stale) :
    t.pending ≠ .stale ∧ (t.Armed ∨ t.writeQueue = [] ∧ t.pollout = s.pollout ∧ t.pending = s.pending) := by
  rcases h.armed with ⟨h1, h2, h3⟩ | ⟨h1, h2⟩ | h1
  · exact ⟨h3 ▸ hl, .inr ⟨h1, h2, h3⟩⟩
  · exact ⟨h2 ▸ hl, .inl (.inl h1)⟩
  · rw [ioFeed_linked hl] at h1
    exact ⟨by rw [h1]; nofun, .inl (.inr h1)⟩

/-! ## Callbacks of writes -/

namespace State

theorem drain_goes (hs : Going (.writeCb .io) s) (hq : s.writeQueue = []) : Goes (s.drain env) := by
  refine (drain_sat (T := anyTerms 0) id).mono (fun t ht => ?_) fun _ _ => trivial
  obtain ⟨hd, -⟩ := ht
  have hf := hd.frame
  intro hc
  have hcs : s.flags.closing = false := by
    rw [hf] at hc
    exact hc
  have hno : t.flags.shutting = false := by
    cases hsh : t.flags.shutting with
    | false => rfl
    | true =>
      obtain ⟨-, h1, h2⟩ := hd.same hsh
      rw [hcs, (hs hcs).shut h1] at h2
      rcases h2 with h2 | h2
      · cases h2
      · cases h2.1
  refine ⟨?_, fun h => ?_, fun h => ?_, fun _ h => ?_⟩
  · rw [hf]
    exact (hs hcs).linked
  · rw [hno] at h
    cases h
  · rw [hf] at h
    exact absurd hq h
  · rcases h with h | h
    · rw [hf] at h
      exact absurd hq h.1
    · rw [hno] at h
      cases h.1

theorem afterCallbacks_goes {caller : Caller} (hs : Going (.writeCb caller) s) (hcaller : caller ≠ .destroy) :
    Goes (s.afterCallbacks caller env) := by
  cases caller with
  | io =>
    refine Sat.ite (fun hq => drain_goes hs hq) fun hne hc => ?_
    exact { hs hc with armed := fun hreq _ => (hs hc).armed hreq (.inl ⟨hne, rfl⟩) }
  | connect => exact fun hc => { hs.full (q := .idle) rfl nofun hc with }
  | destroy => exact absurd rfl hcaller

theorem runCallbacks_goes {caller : Caller} {l : List WriteReq} (hs : Going (.writeCb caller) s) (hcaller : caller ≠ .destroy)
    (hl : s.pq = l) : Goes (runCallbacks caller env l s) := by
  refine runCallbacks_sat (T := anyTerms 0) (c := none) (d := none) hl (fun t ht _ => ?_) (fun t ht _ _ => ?_) fun _ _ => trivial
  · rw [ht]
    exact fun hc => { hs hc with }
  · rw [ht]
    exact afterCallbacks_goes (fun hc => { hs hc with }) hcaller

theorem uvWrite_goes {outs : List Outcome}
    (hs : s.flags.closing = false → s.pending ≠ .stale ∧ (s.flags.shutting = true → s.flags.shut = false)) :
    Goes (s.uvWrite iovmax outs >>= fun u => u.writeCallbacks .io env) := by
  refine Sat.bind ((uvWrite_sat (T := anyTerms iovmax) (c := none) (d := none) id nofun).mono (fun _ h => h) fun _ _ => trivial) fun u hu => ?_
  obtain ⟨hfd, hu, -⟩ := hu
  have hf := hu.frame
  refine runCallbacks_goes (fun hc => ?_) nofun rfl
  have hcs : s.flags.closing = false := by
    rw [hf] at hc
    exact hc
  obtain ⟨hlinked, harmed⟩ := hu.waits (hs hcs).1
  refine ⟨hlinked, ?_, fun _ => ?_, fun _ h => ?_⟩
  · rw [hf]
    exact (hs hcs).2
  · rw [hf]
    intro h
    rw [show s.fd = -1 from h] at hfd
    cases hfd
  · rcases h with h | h
    · exact harmed.resolve_right fun hn => h.1 hn.1
    · exact absurd rfl h.2

/-! ## Events -/

theorem afterReads_goes {ev : Events} (hs : Going .idle s) :
    AfterReads iovmax ev env (fun t => Going t.pc t) (fun _ => True) s := by
  have hreads : ∀ {pc : Pc} {t : State}, Reads s t → Going pc s → Going pc t := fun ht h hc => by
    have hf := ht.frame
    rw [hf] at hc ⊢
    exact { h hc with }
  refine ⟨fun t ht hpc => ?_, fun t ht hpc => ?_, fun t ht _ _ _ => ?_, trivial⟩
  · rw [hpc]
    exact hreads ht hs
  · have hpc' : Going t.pc s := hs.full rfl nofun
    exact hreads ht hpc'
  · refine uvWrite_goes fun hc => ?_
    have := hreads ht hs hc
    exact ⟨this.linked, this.shut⟩

theorem afterConnect_goes {error : ℤ} (hs : Going (.connectCb error) s) : Goes (s.afterConnect error env) := by
  refine Sat.ite (fun hfd hc => ?_) fun _ => Sat.ite (fun _ => ?_) fun herr => ?_
  · refine { hs hc with armed := fun hreq h => (hs hc).armed hreq (.inr ?_) }
    rcases h with h | h
    · exact absurd hfd ((hs hc).fd h.1)
    · exact ⟨h.1, nofun⟩
  · refine runCallbacks_goes (fun hc => ?_) nofun rfl
    refine { hs hc with fd := fun h => absurd rfl h, armed := fun hreq h => (hs hc).armed hreq (.inr ?_) }
    rcases h with h | h
    · exact absurd rfl h.1
    · exact ⟨h.1, nofun⟩
  · exact fun hc => { hs.full (q := .idle) (decide_eq_false herr) nofun hc with }

/-- A connect that is completed leaves a way on for what is queued or shutting. -/
def Leaves (s : State) (env : Env) : Prop :=
  s.connectReq.isSome = true → s.connectError env ≠ UV_EINPROGRESS →
    s.pending = .queued ∨ if s.connectError env < 0 ∨ s.writeQueue = [] then s.flags.shutting = false else s.pollout = true

theorem streamConnect_goes {req : Req} (hs : Going .idle s) (hreq : s.connectReq = some req) (hl : s.Leaves env) :
    Goes (s.streamConnect req env) := by
  have hconnected : ∀ t, s.connectError env ≠ UV_EINPROGRESS → Connected s (s.connectError env) t →
      Going (.connectCb (s.connectError env)) t := by
    intro t hne ht hc
    have hleft := hl (by rw [hreq]; rfl) hne
    rw [ht] at hc ⊢
    refine { hs hc with armed := fun _ h => ?_ }
    rcases hleft with hp | hleft
    · exact .inr hp
    · split at hleft
      · next hstop =>
        rcases h with ⟨hq, herr⟩ | ⟨hsh, -⟩
        · rcases hstop with hneg | hnil
          · exact absurd hneg (of_decide_eq_false herr)
          · exact absurd hnil hq
        · rw [hleft] at hsh
          cases hsh
      · next hgo => exact .inl ((if_neg hgo).trans hleft)
  refine streamConnect_sat (T := anyTerms 0) hreq id (fun hc => ?_) (fun t hne ht _ hc => ?_) (fun t hne ht _ => ?_) fun _ _ => trivial
  · refine { hs hc with armed := fun h => ?_ }
    rw [show s.connectReq = none from h] at hreq
    cases hreq
  · exact { hconnected t hne ht hc with }
  · exact afterConnect_goes (hconnected t hne ht)

theorem streamIo_goes {ev : Events} (hs : Going .idle s) (hl : s.Leaves env) : Goes (s.streamIo iovmax ev env) := by
  refine Sat.ite (fun _ => trivial) fun _ => ?_
  split
  · next req hreq => exact streamConnect_goes hs hreq hl
  · have hreads : AfterReads iovmax ev env _ _ s := afterReads_goes hs
    refine Sat.ite (fun _ => trivial) fun _ => Sat.ite (fun _ => ?_) fun _ => afterRead_sat hreads
    exact readLoop_sat (hreads.after ⟨rfl, id, fun _ => id⟩ rfl)

theorem runPending_goes (hs : Going .idle s) (hl : Leaves { s with pending := .unlinked } env) :
    Goes (streamIo { s with pending := .unlinked } iovmax ⟨false, true, false, false⟩ env) := by
  refine Sat.ite (fun _ => trivial) fun _ => ?_
  split
  · next req hreq =>
    refine streamConnect_goes (fun hc => ?_) hreq hl
    refine { hs hc with linked := nofun, armed := fun h => ?_ }
    rw [show s.connectReq = none from h] at hreq
    cases hreq
  · refine Sat.ite (fun _ => trivial) fun hfd => Sat.ite (fun h => ?_) fun _ => ?_
    · rcases h with h | h | h <;> cases h
    · have hfd' : ¬ s.fd = -1 := fun h => hfd (by rw [show ({ s with pending := .unlinked } : State).fd = -1 from h]; decide)
      refine Sat.ite (fun h => absurd h hfd') fun _ => Sat.ite (fun h => absurd h.1 nofun) fun _ => ?_
      refine Sat.ite (fun h => absurd h hfd') fun _ => Sat.ite (fun _ => ?_) fun h => absurd (.inl rfl) h
      exact uvWrite_goes fun hc => ⟨nofun, (hs hc).shut⟩

theorem ret_goes (hs : Going s.pc s) (hpc : s.pc.destroying = false) : Goes (s.ret iovmax env) := by
  unfold ret
  split
  · exact trivial
  · next error h =>
    rw [h] at hs
    exact afterConnect_goes hs
  · next count ev h =>
    rw [h] at hs
    have hreads : AfterReads iovmax ev env _ _ s := afterReads_goes (hs.full rfl nofun)
    exact afterAlloc_sat hreads
  · next nxt ev h =>
    rw [h] at hs
    exact afterReadCb_sat (afterReads_goes (hs.full rfl nofun))
  · next ev h =>
    rw [h] at hs
    exact afterEof_sat (afterReads_goes (hs.full rfl nofun))
  · next caller h =>
    rw [h] at hs hpc
    refine runCallbacks_goes hs (fun hd => ?_) rfl
    rw [hd] at hpc
    cases hpc
  · next h =>
    rw [h] at hs
    exact fun hc => { hs.full (q := .idle) rfl nofun hc with }
  · next h =>
    rw [h] at hpc
    cases hpc
  · next h =>
    rw [h] at hpc
    cases hpc

/-! ## The API -/

theorem opened_goes (hs : Going s.pc s) (ht : Opened s t) : Going t.pc t := by
  rw [ht.frame]
  refine fun hc => { hs hc with fd := fun hq h => ?_ }
  rcases ht.fd with hfd | hfd
  · exact (hs hc).fd hq (hfd.symm.trans h)
  · rw [show t.fd = -1 from h] at hfd
    cases hfd

theorem connecting_goes (hs : Going s.pc s) {cb : Bool} (ht : Connecting s cb t) : Going t.pc t := by
  rw [ht.frame]
  refine fun hc => ⟨?_, (hs hc).shut, fun hq h => ?_, nofun⟩
  · rcases ht.pending with h | h
    · exact fun hst => (hs hc).linked (h.symm.trans hst)
    · rw [ioFeed_linked (hs hc).linked] at h
      exact fun hst => by cases h.symm.trans hst
  · rcases ht.fd with hfd | hfd
    · exact (hs hc).fd hq (hfd.symm.trans h)
    · rw [show t.fd = -1 from h] at hfd
      cases hfd

theorem ioStartOut_goes (hs : s.flags.closing = false → s.pending ≠ .stale ∧ (s.flags.shutting = true → s.flags.shut = false)) :
    Goes s.ioStartOut := by
  refine Sat.ite (fun _ => trivial) fun hfd hc => ?_
  refine ⟨(hs hc).1, (hs hc).2, fun _ h => hfd ?_, fun _ _ => .inl rfl⟩
  rw [show s.fd = -1 from h]
  decide

theorem tcpConnect_goes (hs : Going s.pc s) {cb : Bool} {sock : NewSocket} {res : ConnectResult} :
    Goes (s.tcpConnect cb sock res) :=
  tcpConnect_sat.mono (fun _ ht => ht.elim (opened_goes hs) fun h => connecting_goes hs h.2) fun _ _ => trivial

theorem pipeConnect_goes (hs : Going s.pc s) {cb : Bool} {sock : Except ℤ ℤ} {res : ConnectResult} :
    Goes (s.pipeConnect cb sock res) :=
  pipeConnect_sat.mono (fun _ ht => connecting_goes hs ht) fun _ _ => trivial

theorem write2_goes (hs : Going s.pc s) {bufs : List Buf} {send : Option Bool} {cb alloc : Bool} {outs : List Outcome} :
    Goes (s.write2 iovmax bufs send cb alloc outs) := by
  refine Sat.ite (fun _ => trivial) fun _ => Sat.ite (fun _ => hs) fun hcheck => ?_
  have hfd : 0 ≤ s.fd := by
    by_contra hneg
    exact hcheck (by simp [checkBeforeWrite, hneg])
  have hfd' : s.fd ≠ -1 := fun h => by
    rw [h] at hfd
    cases hfd
  refine Sat.ite (fun _ hc => { hs hc with }) fun _ => Sat.ite (fun hreq hc => ?_) fun _ => Sat.ite (fun _ => ?_) fun _ => ?_
  · refine { hs hc with fd := fun _ => hfd', armed := fun h => ?_ }
    rw [h] at hreq
    cases hreq
  · refine (uvWrite_sat (T := anyTerms iovmax) (c := none) (d := none) id nofun).mono (fun t ht => ?_) fun _ _ => trivial
    obtain ⟨-, ht, -⟩ := ht
    have hf := ht.frame
    intro hc
    have hcs : s.flags.closing = false := by
      rw [hf] at hc
      exact hc
    obtain ⟨hlinked, harmed⟩ := ht.waits (hs hcs).linked
    refine ⟨hlinked, ?_, fun _ => ?_, fun hreq h => ?_⟩
    · rw [hf]
      exact (hs hcs).shut
    · rw [hf]
      exact hfd'
    · rcases harmed with harmed | ⟨hnil, hout, hpend⟩
      · exact harmed
      · -- the write is done: a shutdown waits as before
        have hsh := h.resolve_left fun h => h.1 hnil
        rw [hf] at hreq hsh
        have := (hs hcs).armed hreq (.inr hsh)
        unfold Armed at this ⊢
        rw [hout, hpend]
        exact this
  · exact Sat.ite (fun _ => trivial) fun _ => ioStartOut_goes fun hc => ⟨(hs hc).linked, (hs hc).shut⟩

theorem tryWrite2_goes (hs : Going s.pc s) {bufs : List Buf} {o : Outcome} : Goes (s.tryWrite2 iovmax bufs o) := by
  refine Sat.ite (fun _ => hs) fun _ => Sat.ite (fun _ => trivial) fun _ => Sat.ite (fun _ => hs) fun _ => ?_
  refine Sat.bind ((uvTryWrite_sat (T := anyTerms iovmax) False.elim).mono (fun _ h => h) fun _ _ => trivial) fun p hp => ?_
  obtain ⟨n, t⟩ := p
  have ht : Going t.pc t := by
    obtain ⟨more, -, ⟨n, -, hp⟩ | ⟨-, hp⟩⟩ := hp
    · cases hp
      exact fun hc => { hs hc with }
    · cases hp
      exact fun hc => { hs hc with }
  dsimp only
  split
  · exact fun hc => { ht hc with }
  · exact ht

theorem shutdown_goes (hs : Going s.pc s) {cb : Bool} : Goes (s.shutdown cb) := by
  refine Sat.ite (fun _ => hs) fun hfree => ioStartOut_goes fun hc => ⟨(hs hc).linked, fun _ => ?_⟩
  cases hshut : s.flags.shut with
  | false => rfl
  | true => exact absurd (.inr (.inl hshut)) hfree

theorem readStart_goes (hs : Going s.pc s) : Goes s.readStart := by
  refine Sat.ite (fun _ => hs) fun _ => ioStartIn_sat.mono (fun t ht => ?_) fun _ _ => trivial
  rw [ht.2]
  exact fun hc => { hs hc with }

theorem readStop_goes (hs : Going s.pc s) : Going s.readStop.pc s.readStop := by
  rw [readStop_eq]
  exact fun hc => { hs hc with }

theorem close_goes : Goes s.close := by
  refine Sat.ite (fun _ => trivial) fun _ => ?_
  refine Sat.ite (fun _ => trivial) fun _ => ?_
  rw [readStop_eq]
  exact fun hc => by cases hc

end State

/-! ## Steps and runs -/

/-- The condition on a run: a connect that is completed leaves a way on. -/
def ConnectLeaves (s : State) : Label → Prop
  | .io _ env => s.Leaves env
  | .runPending env => State.Leaves { s with pending := .unlinked } env
  | _ => True

theorem step_goes {l : Label} (hw : Wf (anyTerms iovmax) s) (hwt : ∀ t, step iovmax s l = .ok t → Wf (anyTerms iovmax) t)
    (hs : Going s.pc s) (hl : ConnectLeaves s l) (hst : step iovmax s l = .ok t) : Going t.pc t := by
  have hgone : t.Gone → Going t.pc t := fun hg hc => by
    rw [(hwt t hst).closing ((hwt t hst).gone_closed hg)] at hc
    cases hc
  have hof : Goes (step iovmax s l) → Going t.pc t := fun h => h.of_ok hst
  cases l with
  | «open» =>
    exact hof (Sat.ite (fun _ => trivial) fun _ => State.streamOpen_sat.mono (fun _ ht => State.opened_goes hs ht) fun _ _ => trivial)
  | bind =>
    exact hof (Sat.ite (fun _ => trivial) fun _ => State.bind_sat.mono (fun _ ht => State.opened_goes hs ht) fun _ _ => trivial)
  | tcpConnect => exact hof (Sat.ite (fun _ => trivial) fun _ => State.tcpConnect_goes hs)
  | pipeConnect => exact hof (Sat.ite (fun _ => trivial) fun _ => State.pipeConnect_goes hs)
  | write => exact hof (Sat.ite (fun _ => trivial) fun _ => State.write2_goes hs)
  | tryWrite => exact hof (Sat.ite (fun _ => trivial) fun _ => State.tryWrite2_goes hs)
  | shutdown => exact hof (Sat.ite (fun _ => trivial) fun _ => State.shutdown_goes hs)
  | readStart => exact hof (Sat.ite (fun _ => trivial) fun _ => State.readStart_goes hs)
  | readStop => exact hof (Sat.ite (fun _ => trivial) fun _ => State.readStop_goes hs)
  | close => exact hof (Sat.ite (fun _ => trivial) fun _ => State.close_goes)
  | io ev env =>
    refine hof (Sat.ite (fun h => ?_) fun _ => trivial)
    rw [h.1] at hs
    exact State.streamIo_goes hs hl
  | runPending env =>
    refine hof (Sat.ite (fun h => ?_) fun _ => trivial)
    rw [h.1] at hs
    exact State.runPending_goes hs hl
  | ret env =>
    cases hpc : s.pc.destroying with
    | false => exact hof (State.ret_goes hs hpc)
    | true => exact hgone (hw.gone (.inr hpc) hst)
  | destroy env =>
    have hd : Sat State.Gone (fun _ => True) (step iovmax s (.destroy env)) :=
      Sat.ite (fun _ => State.streamDestroy_gone) fun _ => trivial
    exact hgone (hd.of_ok hst)

theorem going_run : ((system iovmax).restrict ConnectLeaves).Inductive fun s => Wf (anyTerms iovmax) s ∧ Going s.pc s := by
  have hwf := inductive_of_micros (T := anyTerms iovmax) (I := fun _ => True) (C := ConnectLeaves) id
    (fun _ _ _ => ⟨nofun, nofun, nofun, nofun, nofun⟩) (fun _ _ _ => trivial) fun _ _ _ _ => trivial
  refine ⟨fun s hs => ⟨(hwf.init s hs).1, ?_⟩, fun s l t hs hst => ⟨(hwf.step s l t ⟨hs.1, trivial⟩ hst).1, ?_⟩⟩
  · obtain ⟨type, ipc, b, rfl⟩ := hs
    refine fun _ => ⟨nofun, nofun, fun h => absurd rfl h, fun _ h => ?_⟩
    rcases h with h | h
    · exact absurd rfl h.1
    · cases h.1
  · exact step_goes hs.1 (fun u hu => (hwf.step s l u ⟨hs.1, trivial⟩ ⟨hst.1, hu⟩).1) hs.2 hst.1 hst.2

/-- **Progress**: outside of its callbacks, a stream that is neither closing nor connecting
waits for `POLLOUT` or is in the pending queue while a write is queued or a shutdown waits,
in every run where each connect that is completed leaves it so. -/
theorem progress (h : ((system iovmax).restrict ConnectLeaves).Reachable s) (hpc : s.pc = .idle)
    (hc : s.flags.closing = false) (hreq : s.connectReq = none) (hw : s.writeQueue ≠ [] ∨ s.flags.shutting = true) :
    s.pollout = true ∨ s.pending = .queued := by
  have hs := (going_run.reachable h).2 hc
  rw [hpc] at hs
  exact hs.armed hreq (hw.imp (fun h => ⟨h, rfl⟩) fun h => ⟨h, nofun⟩)

/-- A connect with a write queued, and a shutdown. -/
theorem progress_connected : ∃ s, ((system 1024).restrict ConnectLeaves).Reachable s ∧ s.flags.shutting = true ∧
    s.writeQueue ≠ [] ∧ (s.pollout = true ∨ s.pending = .queued) := by
  have h0 : ((system 1024).restrict ConnectLeaves).Reachable (streamInit .tcp false false) := .init ⟨_, _, _, rfl⟩
  have h1 := h0.next (.tcpConnect true (.fd 3) .inProgress) ⟨trivial, rfl⟩
  have h2 := h1.next (.write [[1]] none true true []) ⟨trivial, rfl⟩
  have h3 := h2.next (.shutdown true) ⟨trivial, rfl⟩
  have h4 := h3.next (.io ⟨false, true, false, false⟩ ⟨[], 0, 0, .again, true⟩) ⟨fun _ _ => .inr rfl, rfl⟩
  have h5 := h4.next (.ret ⟨[], 0, 0, .again, true⟩) ⟨trivial, rfl⟩
  exact ⟨_, h5, rfl, nofun, progress h5 rfl rfl rfl (.inr rfl)⟩

def State.Stranded (s : State) : Prop :=
  s.pc = .idle ∧ s.flags.closing = false ∧ s.connectReq = none ∧ s.pollout = false ∧ s.pending = .unlinked

/-- A shutdown behind a connect is stranded where the connect is completed, and so is a write
behind a connect that a write callback made. -/
theorem stranded :
    (∃ s, (system 1024).Reachable s ∧ s.Stranded ∧ s.flags.shutting = true) ∧
    ∃ s, (system 1024).Reachable s ∧ s.Stranded ∧ s.writeQueue ≠ [] := by
  refine ⟨?_, ?_⟩
  · have h0 : (system 1024).Reachable (streamInit .tcp false false) := .init ⟨_, _, _, rfl⟩
    have h1 := h0.next (.tcpConnect true (.fd 3) .inProgress) rfl
    have h2 := h1.next (.shutdown true) rfl
    have h3 := h2.next (.io ⟨false, true, false, false⟩ ⟨[], 0, 0, .again, true⟩) rfl
    have h4 := h3.next (.ret ⟨[], 0, 0, .again, true⟩) rfl
    exact ⟨_, h4, ⟨rfl, rfl, rfl, rfl, rfl⟩, rfl⟩
  · have h1 : (system 1024).Reachable opened := opened_reachable
    -- the socket is not connected, and the write fails
    have h2 := h1.next (.write [[1]] none true true [.error (-32)]) (rfl : step 1024 _ _ = .ok _)
    have h3 := h2.next (.runPending ⟨[], 0, 0, .again, true⟩) rfl
    have h4 := h3.next (.tcpConnect true (.fd 3) .inProgress) rfl
    have h5 := h4.next .readStart rfl
    -- uv__drain stops POLLOUT
    have h6 := h5.next (.ret ⟨[], 0, 0, .again, true⟩) rfl
    have h7 := h6.next (.write [[2]] none true true []) rfl
    have h8 := h7.next (.io ⟨true, false, false, false⟩ ⟨[], 0, 0, .again, true⟩) rfl
    have h9 := h8.next (.ret ⟨[], 0, 0, .again, true⟩) rfl
    exact ⟨_, h9, ⟨rfl, rfl, rfl, rfl, rfl⟩, nofun⟩

end Libuv.L3.Stream
