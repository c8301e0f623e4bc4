import Libuv.L3Stream.Progress

/-!
# What a stream's code keeps

`WriteEnd` is the write queue, the shutdown request and the flags about them. Few functions touch
them, and a property of them that those few keep (`Lasting`) is kept by all code.

* `Lasting.step`: one step.
* `Lasting.run`: a run, next to an invariant of the requests.
-/
namespace Libuv.L3.Stream

structure WriteEnd where
  writeQueue : List WriteReq
  shutdownReq : Option Req
  blockingWrites : Bool
  shutting : Bool
  shut : Bool
  closing : Bool

def State.writeEnd (s : State) : WriteEnd where
  writeQueue := s.writeQueue
  shutdownReq := s.shutdownReq
  blockingWrites := s.flags.blockingWrites
  shutting := s.flags.shutting
  shut := s.flags.shut
  closing := s.flags.closing

/-- What the code leads to has a write end that satisfies `P`. -/
def Leads (P : WriteEnd → Prop) (x : Except Fault State) : Prop := Sat (fun t => P t.writeEnd) (fun _ => True) x

/-! ## Code that leaves it alone -/

section
variable {iovmax : ℕ} {P : WriteEnd → Prop} {s t : State}

theorem Popped.writeEnd (ht : Popped s t) : t.writeEnd = s.writeEnd := by
  rw [ht]
  rfl

theorem Reads.writeEnd (ht : Reads s t) : t.writeEnd = s.writeEnd := by
  rw [ht.frame]
  rfl

theorem Connected.writeEnd {error : ℤ} (ht : Connected s error t) : t.writeEnd = s.writeEnd := by
  rw [ht]
  rfl

theorem Opened.writeEnd (ht : Opened s t) : t.writeEnd = s.writeEnd := by
  rw [ht.frame]
  rfl

theorem Connecting.writeEnd {cb : Bool} (ht : Connecting s cb t) : t.writeEnd = s.writeEnd := by
  rw [ht.frame]
  rfl

theorem leads_destroyEnd (hs : P s.writeEnd) : Leads P s.destroyEnd := Sat.ite (fun _ => trivial) fun _ => hs

theorem leads_destroyShutdown (hs : P s.writeEnd) : Leads P s.destroyShutdown := by
  unfold State.destroyShutdown
  split
  · exact leads_destroyEnd hs
  · refine Sat.bind (State.reqUnregister_sat.mono (fun _ ht => ht) fun _ _ => trivial) fun t ht => ?_
    obtain ⟨-, rfl⟩ := ht
    exact Sat.ite (fun _ => hs) fun _ => trivial

theorem leads_tryWrite {bufs : List Buf} {o : Outcome} (hs : P s.writeEnd) : Leads P (s.tryWrite2 iovmax bufs o) := by
  refine Sat.ite (fun _ => hs) fun _ => Sat.ite (fun _ => trivial) fun _ => Sat.ite (fun _ => hs) fun _ => ?_
  refine Sat.bind ((State.uvTryWrite_sat (T := anyTerms iovmax) False.elim).mono (fun _ hp => hp) fun _ _ => trivial) fun p hp => ?_
  obtain ⟨n, t⟩ := p
  have ht : t.writeEnd = s.writeEnd := by
    obtain ⟨more, -, ⟨n, -, hp⟩ | ⟨-, hp⟩⟩ := hp
    · cases hp
      rfl
    · cases hp
      rfl
  rw [← ht] at hs
  dsimp only
  split
  · exact hs
  · exact hs

end

/-! ## Code that keeps the property -/

/-- The functions that touch it keep `P`; the calls of `uv_write2` that meet `C` do. -/
structure Lasting (iovmax : ℕ) (C : State → Label → Prop) (P : WriteEnd → Prop) : Prop where
  flush : ∀ c, P c → P { c with writeQueue := [] }
  drain : ∀ s t, Drained s t → P s.writeEnd → P t.writeEnd
  closing : ∀ c, P c → P { c with closing := true }
  unshut : ∀ c : WriteEnd, c.closing = true → P c → P { c with shutdownReq := none }
  shutdown : ∀ c req, P c → P { c with shutdownReq := some req, shutting := true }
  uvWrite : ∀ (s : State) outs, P s.writeEnd → Leads P (s.uvWrite iovmax outs)
  write : ∀ (s : State) bufs send cb alloc outs, C s (.write bufs send cb alloc outs) → P s.writeEnd →
    Leads P (s.write2 iovmax bufs send cb alloc outs)

namespace Lasting

variable {iovmax : ℕ} {C : State → Label → Prop} {P : WriteEnd → Prop} {s t : State} {env : Env} (h : Lasting iovmax C P)
include h

/-! ## Callbacks -/

theorem keepDrain (hs : P s.writeEnd) : Leads P (s.drain env) :=
  (State.drain_sat (T := anyTerms 0) id).mono (fun _ ht => h.drain _ _ ht.1 hs) fun _ _ => trivial

theorem keepAfterCallbacks {caller : Caller} (hs : P s.writeEnd) : Leads P (s.afterCallbacks caller env) := by
  cases caller with
  | io => exact Sat.ite (fun _ => h.keepDrain hs) fun _ => hs
  | connect => exact hs
  | destroy => exact leads_destroyShutdown hs

theorem keepRunCallbacks {caller : Caller} {l : List WriteReq} (hs : P s.writeEnd) (hl : s.pq = l) :
    Leads P (State.runCallbacks caller env l s) := by
  refine State.runCallbacks_sat (T := anyTerms 0) (c := none) (d := none) hl (fun t ht _ => ?_) (fun t ht _ _ => ?_)
    fun _ _ => trivial
  · exact (ht.writeEnd ▸ hs : P t.writeEnd)
  · exact h.keepAfterCallbacks (ht.writeEnd ▸ hs)

theorem keepWriteCallbacks {caller : Caller} (hs : P s.writeEnd) : Leads P (s.writeCallbacks caller env) :=
  h.keepRunCallbacks (s := { s with pq := s.writeCompletedQueue, writeCompletedQueue := [] }) hs rfl

/-! ## Events -/

theorem keepAfterReads {ev : Events} (hs : P s.writeEnd) :
    State.AfterReads iovmax ev env (fun t => P t.writeEnd) (fun _ => True) s := by
  have hreads : ∀ {t}, Reads s t → P t.writeEnd := fun ht => ht.writeEnd ▸ hs
  exact ⟨fun _ ht _ => hreads ht, fun _ ht _ => hreads ht,
    fun _ ht _ _ _ => Sat.bind (h.uvWrite _ _ (hreads ht)) fun _ hu => h.keepWriteCallbacks hu, trivial⟩

theorem keepAfterConnect {error : ℤ} (hs : P s.writeEnd) : Leads P (s.afterConnect error env) :=
  Sat.ite (fun _ => hs) fun _ =>
    Sat.ite (fun _ => h.keepWriteCallbacks (s := s.flushWriteQueue _) (h.flush _ hs)) fun _ => hs

theorem keepStreamIo {ev : Events} (hs : P s.writeEnd) : Leads P (s.streamIo iovmax ev env) := by
  refine Sat.ite (fun _ => trivial) fun _ => ?_
  split
  · next req hreq =>
    have hconnected : ∀ {e t}, Connected s e t → P t.writeEnd := fun ht => Connected.writeEnd ht ▸ hs
    exact State.streamConnect_sat (T := anyTerms iovmax) hreq id (hs)
      (fun t _ ht _ => (hconnected ht : P t.writeEnd)) (fun _ _ ht _ => h.keepAfterConnect (hconnected ht)) fun _ _ => trivial
  · have hreads : State.AfterReads iovmax ev env (fun t => P t.writeEnd) (fun _ => True) s := h.keepAfterReads hs
    refine Sat.ite (fun _ => trivial) fun _ => Sat.ite (fun _ => ?_) fun _ => State.afterRead_sat hreads
    exact State.readLoop_sat (hreads.after ⟨rfl, id, fun _ => id⟩ rfl)

theorem keepDestroyWrites (hs : P s.writeEnd) : Leads P (s.destroyWrites env) :=
  h.keepWriteCallbacks (s := s.flushWriteQueue _) (h.flush _ hs)

theorem keepStreamDestroy (hs : P s.writeEnd) : Leads P (s.streamDestroy env) := by
  refine Sat.ite (fun _ => trivial) fun _ => ?_
  dsimp only
  split
  · refine Sat.bind (State.reqUnregister_sat.mono (fun _ ht => ht) fun _ _ => trivial) fun t ht => ?_
    obtain ⟨-, rfl⟩ := ht
    exact Sat.ite (fun _ => hs) fun _ => trivial
  · exact h.keepDestroyWrites hs

theorem keepRet {T : Terms} (hw : Wf T s) (hs : P s.writeEnd) : Leads P (s.ret iovmax env) := by
  unfold State.ret
  split
  · exact trivial
  · exact h.keepAfterConnect hs
  · exact State.afterAlloc_sat (h.keepAfterReads hs)
  · exact State.afterReadCb_sat (h.keepAfterReads hs)
  · exact State.afterEof_sat (h.keepAfterReads hs)
  · exact h.keepRunCallbacks hs rfl
  · exact hs
  · exact h.keepDestroyWrites hs
  · next hpc =>
    have hc : s.flags.closing = true := hw.closing (hw.destroying (by rw [hpc]; rfl))
    exact leads_destroyEnd (s := { s with shutdownReq := none }) (h.unshut s.writeEnd hc hs)

/-! ## The API -/

theorem keepClose (hs : P s.writeEnd) : Leads P s.close := by
  refine Sat.ite (fun _ => trivial) fun _ => Sat.ite (fun _ => trivial) fun _ => ?_
  rw [State.readStop_eq]
  exact h.closing _ hs

/-! ## Steps and runs -/

theorem step {T : Terms} (hw : Wf T s) (hs : P s.writeEnd) {l : Label} (hl : C s l) :
    Leads P (Stream.step iovmax s l) := by
  cases l with
  | «open» fd r w =>
    exact Sat.ite (fun _ => trivial) fun _ => State.streamOpen_sat.mono (fun _ ht => (ht.writeEnd ▸ hs : P _)) fun _ _ => trivial
  | bind fd e =>
    exact Sat.ite (fun _ => trivial) fun _ => State.bind_sat.mono (fun _ ht => (ht.writeEnd ▸ hs : P _)) fun _ _ => trivial
  | tcpConnect cb sock r =>
    refine Sat.ite (fun _ => trivial) fun _ => State.tcpConnect_sat.mono (fun t ht => ?_) fun _ _ => trivial
    exact ht.elim (fun ht => ht.writeEnd ▸ hs) fun ht => ht.2.writeEnd ▸ hs
  | pipeConnect cb sock r =>
    exact Sat.ite (fun _ => trivial) fun _ =>
      State.pipeConnect_sat.mono (fun _ ht => (ht.writeEnd ▸ hs : P _)) fun _ _ => trivial
  | write bufs send cb alloc outs => exact Sat.ite (fun _ => trivial) fun _ => h.write s bufs send cb alloc outs hl hs
  | tryWrite bufs o => exact Sat.ite (fun _ => trivial) fun _ => leads_tryWrite hs
  | shutdown cb =>
    refine Sat.ite (fun _ => trivial) fun _ => Sat.ite (fun _ => hs) fun _ => Sat.ite (fun _ => trivial) fun _ => ?_
    exact h.shutdown _ ⟨s.nextId, cb⟩ hs
  | readStart =>
    exact Sat.ite (fun _ => trivial) fun _ => Sat.ite (fun _ => hs) fun _ => Sat.ite (fun _ => trivial) fun _ =>
      hs
  | readStop =>
    refine Sat.ite (fun _ => trivial) fun _ => ?_
    rw [State.readStop_eq]
    exact hs
  | close => exact Sat.ite (fun _ => trivial) fun _ => h.keepClose hs
  | io ev env => exact Sat.ite (fun _ => h.keepStreamIo hs) fun _ => trivial
  | runPending env =>
    exact Sat.ite (fun _ => h.keepStreamIo (s := { s with pending := .unlinked }) hs) fun _ => trivial
  | ret env => exact h.keepRet hw hs
  | destroy env => exact Sat.ite (fun _ => h.keepStreamDestroy hs) fun _ => trivial

theorem run (hinit : ∀ type ipc b, P (streamInit type ipc b).writeEnd) {I : Reqs → Prop}
    (hI0 : ∀ type ipc b, I (streamInit type ipc b).view) (hI : ∀ r r', Micro (anyTerms iovmax) r r' → I r → I r') :
    ((system iovmax).restrict C).Inductive fun s => (Wf (anyTerms iovmax) s ∧ I s.view) ∧ P s.writeEnd := by
  have hreqs := inductive_of_micros (T := anyTerms iovmax) (C := C) id (fun _ _ _ => ⟨nofun, nofun, nofun, nofun, nofun⟩) hI0 hI
  refine hreqs.with_ (fun s hs => ?_) fun s l t hw hs hst => ?_
  · obtain ⟨type, ipc, b, rfl⟩ := hs
    exact hinit type ipc b
  · exact (h.step hw.1 hs hst.1).of_ok hst.2

end Lasting

end Libuv.L3.Stream
