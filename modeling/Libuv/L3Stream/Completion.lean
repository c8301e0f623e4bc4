import Mathlib.Algebra.BigOperators.Group.Multiset.Basic
import Libuv.L3Stream.WriteOrder

/-!
# The callbacks of requests

A write, a connect or a shutdown that was accepted has its callback called once, behind the
call that submitted it and before `uv__stream_destroy` is over; `active_reqs` counts those
that have not been called. `uv_pipe_connect` puts its request in the place of another, and
`uv_write2` without memory leaves its registration behind: the runs are those without
either, in which nothing is submitted once `uv__stream_destroy` has flushed the queue.

* `completion`: each of these, in every such run.
* `requests_lost`: the runs that are left out.
-/
namespace Libuv.L3.Stream

open List

variable {T : Terms} {r r' : Reqs}

/-! ## Requests and callbacks -/

def Call.isRequest : Call → Bool
  | tryWrite _ => false
  | _ => true

/-- The call number `i` submitted a request. -/
def isRequest (calls : List Call) (i : ℕ) : Bool := calls[i]?.any Call.isRequest

def requestIds (calls : List Call) : List ℕ := (List.range calls.length).filter fun i => isRequest calls i

def idsOf (l : List WriteReq) : Multiset ℕ := ↑(l.map (·.id))

@[simp] theorem idsOf_nil : idsOf [] = 0 := rfl

@[simp] theorem idsOf_cons (q : WriteReq) (l : List WriteReq) : idsOf (q :: l) = {q.id} + idsOf l := rfl

@[simp] theorem idsOf_append (l m : List WriteReq) : idsOf (l ++ m) = idsOf l + idsOf m := by simp [idsOf]

/-- The requests whose callbacks have not started. -/
def Reqs.pending (r : Reqs) : Multiset ℕ :=
  ↑r.connect.toList + ↑r.shutdown.toList + idsOf r.queue + idsOf r.completed + idsOf r.running

def Reqs.calledIds (r : Reqs) : Multiset ℕ := ↑(r.called.map Prod.fst)

theorem requestIds_append {calls : List Call} {c : Call} :
    requestIds (calls ++ [c]) = requestIds calls ++ if c.isRequest then [calls.length] else [] := by
  unfold requestIds
  rw [length_append, length_singleton, range_succ, filter_append]
  congr 1
  · apply filter_congr
    intro i hi
    rw [isRequest, isRequest, getElem?_append_left (mem_range.1 hi)]
  · cases hc : c.isRequest with
    | true | false => simp [isRequest, hc]

theorem requestIds_nodup {calls : List Call} : (requestIds calls).Nodup := nodup_range.filter _

theorem mem_requestIds {calls : List Call} {i : ℕ} : i ∈ requestIds calls ↔ isRequest calls i = true := by
  unfold requestIds
  rw [mem_filter, mem_range, and_iff_right_iff_imp]
  intro h
  by_contra hge
  rw [isRequest, getElem?_eq_none (by omega)] at h
  cases h

/-- The accepted requests are those that are pending and those that were called, and the
pending ones are counted. -/
structure Settled (r : Reqs) : Prop where
  ids : r.pending + r.calledIds = ↑(requestIds r.calls)
  active : r.active = r.pending.card

theorem Settled.submit (h : Settled r) {c : Call} (hc : c.isRequest = true)
    (hp : r'.pending = r.pending + {r.calls.length}) (hcalled : r'.called = r.called) (hcalls : r'.calls = r.calls ++ [c])
    (ha : r'.active = r.active + 1) : Settled r' where
  ids := by
    have hids := h.ids
    rw [Reqs.calledIds] at *
    rw [hp, hcalled, hcalls, requestIds_append, if_pos hc, ← Multiset.coe_add, ← hids, Multiset.coe_singleton]
    abel
  active := by
    rw [hp, ha, h.active, Multiset.card_add, Multiset.card_singleton]

theorem Settled.call (h : Settled r) {i : ℕ} {e : ℤ} (hp : r.pending = r'.pending + {i})
    (hcalled : r'.called = r.called ++ [(i, e)]) (hcalls : r'.calls = r.calls) (ha : r'.active = r.active - 1) : Settled r' where
  ids := by
    have hids := h.ids
    rw [Reqs.calledIds] at *
    rw [hcalls, ← hids, hp, hcalled, map_append, ← Multiset.coe_add]
    abel
  active := by
    rw [ha, h.active, hp, Multiset.card_add, Multiset.card_singleton, Nat.add_sub_cancel]

theorem Settled.move (h : Settled r) (hp : r'.pending = r.pending) (hcalled : r'.called = r.called)
    (hcalls : requestIds r'.calls = requestIds r.calls) (ha : r'.active = r.active) : Settled r' where
  ids := by
    rw [Reqs.calledIds, hp, hcalled, hcalls]
    exact h.ids
  active := by rw [hp, ha, h.active]

theorem Settled.micro (hL : T.lossless) (hm : Micro T r r') (h : Settled r) : Settled r' := by
  have hflush : idsOf (r.queue.map fun q => { q with error := UV_ECANCELED }) = idsOf r.queue := by
    simp [idsOf, Function.comp_def]
  cases hm with
  | submit =>
    refine h.submit rfl ?_ rfl rfl rfl
    simp only [Reqs.pending, idsOf_append, idsOf_cons, idsOf_nil]
    abel
  | leak hp | lose hp => exact absurd hL hp
  | tryWrite => exact h.move rfl rfl (by simp [requestIds_append, Call.isRequest]) rfl
  | spill => exact h.move rfl rfl rfl rfl
  | wrote hq => exact h.move (by simp [Reqs.pending, hq]) rfl rfl rfl
  | finish hq | fail hq =>
    refine h.move ?_ rfl rfl rfl
    simp only [Reqs.pending, hq, idsOf_append, idsOf_cons, idsOf_nil, WriteReq.finished_id]
    abel
  | flush =>
    refine h.move ?_ rfl rfl rfl
    simp only [Reqs.pending, idsOf_append, idsOf_nil, hflush]
    abel
  | begin hr =>
    refine h.move ?_ rfl rfl rfl
    simp only [Reqs.pending, hr, idsOf_nil]
    abel
  | pop hq =>
    refine h.call ?_ rfl rfl rfl
    simp only [Reqs.pending, hq, idsOf_cons]
    abel
  | connect hc | shutdown hc =>
    refine h.submit rfl ?_ rfl rfl rfl
    simp only [Reqs.pending, hc, Option.toList_none, Option.toList_some, Multiset.coe_nil, Multiset.coe_singleton]
    abel
  | connected hc | shut hc =>
    refine h.call ?_ rfl rfl rfl
    simp only [Reqs.pending, hc, Option.toList_none, Option.toList_some, Multiset.coe_nil, Multiset.coe_singleton]
    abel

/-! ## Calls of the API -/

def Quiet (s t : State) : Prop := t.pc = s.pc ∧ t.destroyed = s.destroyed ∧ t.called = s.called

namespace State
variable {s : State} {iovmax : ℕ}

abbrev Calls (s : State) (x : Except Fault State) : Prop := Sat (Quiet s) (fun _ => True) x

theorem Calls.same {t : State} (h : Quiet s t) : s.Calls (.ok t) := h

theorem ioStartOut_calls {t : State} (h : Quiet s t) : s.Calls t.ioStartOut :=
  ioStartOut_sat.mono (fun _ ht => by rw [ht]; exact h) fun _ _ => trivial

theorem opened_quiet {t : State} (ht : Opened s t) : Quiet s t := by
  rw [ht.frame]
  exact ⟨rfl, rfl, rfl⟩

theorem connecting_quiet {cb : Bool} {t : State} (ht : Connecting s cb t) : Quiet s t := by
  rw [ht.frame]
  exact ⟨rfl, rfl, rfl⟩

theorem tcpConnect_calls {cb : Bool} {sock : NewSocket} {res : ConnectResult} : s.Calls (s.tcpConnect cb sock res) :=
  tcpConnect_sat.mono (fun _ ht => ht.elim opened_quiet fun h => connecting_quiet h.2) fun _ _ => trivial

theorem pipeConnect_calls {cb : Bool} {sock : Except ℤ ℤ} {res : ConnectResult} : s.Calls (s.pipeConnect cb sock res) :=
  pipeConnect_sat.mono (fun _ ht => connecting_quiet ht) fun _ _ => trivial

theorem write2_calls {bufs : List Buf} {send : Option Bool} {cb alloc : Bool} {outs : List Outcome} :
    s.Calls (s.write2 iovmax bufs send cb alloc outs) := by
  refine Sat.ite (fun _ => trivial) fun _ => Sat.ite (fun _ => Calls.same ⟨rfl, rfl, rfl⟩) fun _ => ?_
  refine Sat.ite (fun _ => Calls.same ⟨rfl, rfl, rfl⟩) fun _ => Sat.ite (fun _ => Calls.same ⟨rfl, rfl, rfl⟩) fun _ => ?_
  refine Sat.ite (fun _ => ?_) fun _ => Sat.ite (fun _ => trivial) fun _ => ioStartOut_calls ⟨rfl, rfl, rfl⟩
  refine (uvWrite_sat (T := anyTerms iovmax) (c := none) (d := none) id nofun).mono (fun t ht => ?_) fun _ _ => trivial
  rw [ht.2.1.frame]
  exact ⟨rfl, rfl, rfl⟩

theorem tryWrite2_calls {bufs : List Buf} {o : Outcome} : s.Calls (s.tryWrite2 iovmax bufs o) := by
  refine Sat.ite (fun _ => Calls.same ⟨rfl, rfl, rfl⟩) fun _ => Sat.ite (fun _ => trivial) fun _ => ?_
  refine Sat.ite (fun _ => Calls.same ⟨rfl, rfl, rfl⟩) fun _ => ?_
  refine Sat.bind ((uvTryWrite_sat (T := anyTerms iovmax) False.elim).mono (fun _ h => h) fun _ _ => trivial) fun p hp => ?_
  obtain ⟨n, t⟩ := p
  have ht : Quiet s t := by
    obtain ⟨more, -, ⟨n, -, hp⟩ | ⟨-, hp⟩⟩ := hp
    · cases hp
      exact ⟨rfl, rfl, rfl⟩
    · cases hp
      exact ⟨rfl, rfl, rfl⟩
  dsimp only
  split
  · exact Calls.same ht
  · exact Calls.same ht

theorem readStop_calls : Quiet s s.readStop := by
  rw [readStop_eq]
  exact ⟨rfl, rfl, rfl⟩

theorem close_calls : s.Calls s.close := by
  refine Sat.ite (fun _ => trivial) fun _ => ?_
  refine Sat.ite (fun _ => trivial) fun _ => ?_
  rw [readStop_eq]
  exact Calls.same ⟨rfl, rfl, rfl⟩

theorem readStart_calls : s.Calls s.readStart := by
  refine Sat.ite (fun _ => Calls.same ⟨rfl, rfl, rfl⟩) fun _ => ioStartIn_sat.mono (fun t ht => ?_) fun _ _ => trivial
  rw [ht.2]
  exact ⟨rfl, rfl, rfl⟩

end State

theorem step_calls {iovmax : ℕ} {s : State} {l : Label} (hl : l.isCall = true) : s.Calls (step iovmax s l) := by
  cases l with
  | «open» =>
    exact Sat.ite (fun _ => trivial) fun _ => State.streamOpen_sat.mono (fun _ ht => State.opened_quiet ht) fun _ _ => trivial
  | bind => exact Sat.ite (fun _ => trivial) fun _ => State.bind_sat.mono (fun _ ht => State.opened_quiet ht) fun _ _ => trivial
  | tcpConnect => exact Sat.ite (fun _ => trivial) fun _ => State.tcpConnect_calls
  | pipeConnect => exact Sat.ite (fun _ => trivial) fun _ => State.pipeConnect_calls
  | write => exact Sat.ite (fun _ => trivial) fun _ => State.write2_calls
  | tryWrite => exact Sat.ite (fun _ => trivial) fun _ => State.tryWrite2_calls
  | shutdown =>
    refine Sat.ite (fun _ => trivial) fun _ => Sat.ite (fun _ => State.Calls.same ⟨rfl, rfl, rfl⟩) fun _ => ?_
    exact State.ioStartOut_calls ⟨rfl, rfl, rfl⟩
  | readStart => exact Sat.ite (fun _ => trivial) fun _ => State.readStart_calls
  | readStop => exact Sat.ite (fun _ => trivial) fun _ => State.readStop_calls
  | close => exact Sat.ite (fun _ => trivial) fun _ => State.close_calls
  | io | runPending | ret | destroy => cases hl

/-! ## In `uv__stream_destroy` -/

def State.Gone (s : State) : Prop := s.destroyed = true ∨ s.pc.destroying = true

namespace State
variable {s : State}

theorem destroyShutdown_gone : Sat Gone (fun _ => True) s.destroyShutdown := by
  unfold destroyShutdown
  split
  · exact Sat.ite (fun _ => trivial) fun _ => .inl rfl
  · exact Sat.bind (reqUnregister_sat.mono (fun _ h => h) fun _ _ => trivial) fun _ _ =>
      Sat.ite (fun _ => .inr rfl) fun _ => trivial

theorem runCallbacks_gone {env : Env} {l : List WriteReq} (hl : s.pq = l) :
    Sat Gone (fun _ => True) (runCallbacks .destroy env l s) :=
  runCallbacks_sat (T := anyTerms 0) (c := none) (d := none) hl (fun _ _ _ => .inr rfl) (fun _ _ _ _ => destroyShutdown_gone)
    fun _ _ => trivial

theorem destroyWrites_gone {env : Env} : Sat Gone (fun _ => True) (s.destroyWrites env) := runCallbacks_gone rfl

theorem streamDestroy_gone {env : Env} : Sat Gone (fun _ => True) (s.streamDestroy env) := by
  refine Sat.ite (fun _ => trivial) fun _ => ?_
  dsimp only
  split
  · exact Sat.bind (reqUnregister_sat.mono (fun _ h => h) fun _ _ => trivial) fun _ _ =>
      Sat.ite (fun _ => .inr rfl) fun _ => trivial
  · exact destroyWrites_gone

theorem ret_gone {iovmax : ℕ} {env : Env} (h : s.pc.destroying = true) : Sat Gone (fun _ => True) (s.ret iovmax env) := by
  unfold ret
  cases hpc : s.pc with
  | writeCb caller =>
    cases caller with
    | destroy => exact runCallbacks_gone rfl
    | io | connect =>
      rw [hpc] at h
      cases h
  | destroyConnectCb => exact destroyWrites_gone
  | destroyShutdownCb => exact Sat.ite (fun _ => trivial) fun _ => .inl rfl
  | _ =>
    rw [hpc] at h
    cases h

end State

variable {iovmax i : ℕ} {s : State}

theorem Wf.gone {t : State} {l : Label} (hs : Wf T s) (hg : s.Gone) (hst : step iovmax s l = .ok t) : t.Gone := by
  by_cases hl : l.isCall = true
  · obtain ⟨hpc, hd, -⟩ := (step_calls hl).of_ok hst
    unfold State.Gone
    rw [hpc, hd]
    exact hg
  · have hclosing : s.flags.closing = true := hg.elim (fun h => hs.closing (hs.ended h).2.1) fun h => hs.closing (hs.destroying h)
    have hio : ∀ {u : State} {ev : Events} {env : Env}, u.flags.closing = true →
        Sat (fun _ => False) (fun _ => True) (u.streamIo iovmax ev env) := fun {u ev env} h => by
      exact Sat.ite (fun _ => trivial) fun hn => absurd h hn
    cases l with
    | io ev env =>
      have hnone : Sat (fun _ => False) (fun _ => True) (step iovmax s (.io ev env)) := Sat.ite (fun _ => hio hclosing) fun _ => trivial
      exact (hnone.of_ok hst).elim
    | runPending env =>
      have hnone : Sat (fun _ => False) (fun _ => True) (step iovmax s (.runPending env)) :=
        Sat.ite (fun _ => hio (u := { s with pending := .unlinked }) hclosing) fun _ => trivial
      exact (hnone.of_ok hst).elim
    | ret env =>
      rcases hg with hd | hpc
      · have hidle := (hs.ended hd).1
        unfold step State.ret at hst
        rw [hidle] at hst
        cases hst
      · exact (State.ret_gone hpc).of_ok hst
    | destroy env =>
      have hclosed : s.flags.closed = true := hg.elim (fun h => (hs.ended h).2.1) hs.destroying
      have hnone : Sat (fun _ => False) (fun _ => True) (step iovmax s (.destroy env)) := by
        refine Sat.ite (fun h => ?_) fun _ => trivial
        rw [hclosed] at h
        cases h.2.2
      exact (hnone.of_ok hst).elim
    | _ => exact absurd rfl hl

theorem Wf.gone_closed (hs : Wf T s) (hg : s.Gone) : s.flags.closed = true :=
  hg.elim (fun h => (hs.ended h).2.1) hs.destroying

/-- The request `i` has been called with `e`, or is completed with `e`. -/
def Fated (i : ℕ) (e : ℤ) (r : Reqs) : Prop := (i, e) ∈ r.called ∨ ∃ q ∈ r.completed ++ r.running, q.id = i ∧ q.error = e

theorem Fated.micro {e : ℤ} (hm : Micro T r r') (h : Fated i e r) : Fated i e r' := by
  have hmore : ∀ {q : WriteReq} {m : List WriteReq}, q ∈ r.completed ++ r.running → q ∈ r.completed ++ m ++ r.running :=
    fun hq => (mem_append.1 hq).elim (fun h => by simp [h]) fun h => by simp [h]
  rcases h with h | ⟨q, hq, hid, he⟩
  · left
    cases hm with
    | pop | connected | shut => exact mem_append_left _ h
    | _ => exact h
  · cases hm with
    | finish | fail | flush => exact .inr ⟨q, hmore hq, hid, he⟩
    | begin hr =>
      rw [hr, append_nil] at hq
      exact .inr ⟨q, hq, hid, he⟩
    | @pop p rest size hp =>
      rw [hp] at hq
      have hor : q = p ∨ q ∈ r.completed ++ rest := by
        simp only [mem_append, mem_cons] at hq ⊢
        tauto
      rcases hor with rfl | hq
      · exact .inl (by simp [hid, he])
      · exact .inr ⟨q, hq, hid, he⟩
    | connected | shut | _ => exact .inr ⟨q, hq, hid, he⟩

/-- The request `i` is pending and not completed. -/
def Reqs.Unfinished (r : Reqs) (i : ℕ) : Prop := r.connect = some i ∨ r.shutdown = some i ∨ ∃ q ∈ r.queue, q.id = i

theorem Fated.cancelled (hD : T.dying) (hL : T.lossless) (hm : Micro T r r') (h : Fated i UV_ECANCELED r ∨ r.Unfinished i) :
    Fated i UV_ECANCELED r' ∨ r'.Unfinished i := by
  rcases h with h | h | h | ⟨q, hq, hid⟩
  · exact .inl (h.micro hm)
  · cases hm with
    | connect hc =>
      rw [h] at hc
      cases hc
    | lose hp => exact absurd hL hp
    | connected hc _ he =>
      rw [h] at hc
      cases hc
      exact .inl (.inl (by simp [he hD]))
    | _ => exact .inr (.inl h)
  · cases hm with
    | shutdown hc =>
      rw [h] at hc
      cases hc
    | shut hc _ he =>
      rw [h] at hc
      cases hc
      exact .inl (.inl (by simp [he hD]))
    | _ => exact .inr (.inr (.inl h))
  · cases hm with
    | submit => exact .inr (.inr (.inr ⟨q, mem_append_left _ hq, hid⟩))
    | @wrote p rest n k bs hp =>
      rw [hp] at hq
      rcases mem_cons.1 hq with rfl | hq
      · exact .inr (.inr (.inr ⟨_, mem_cons_self, hid⟩))
      · exact .inr (.inr (.inr ⟨q, mem_cons_of_mem _ hq, hid⟩))
    | finish _ _ hd | fail _ _ hd => exact absurd hD hd
    | flush =>
      refine .inl (.inr ⟨{ q with error := UV_ECANCELED }, ?_, hid, rfl⟩)
      exact mem_append_left _ (mem_append_right _ (mem_map_of_mem hq))
    | _ => exact .inr (.inr (.inr ⟨q, hq, hid⟩))

/-! ## Every run -/

def Completing (s : State) (l : Label) : Prop := Lossless s l ∧ Tidy s l

def completing (iovmax : ℕ) : Terms := { iovmax := iovmax, lossless := True, bounded := False, tidy := True, dying := False }

/-- The runs that lose no request, once the stream is being destroyed. -/
def cancelling (iovmax : ℕ) : Terms := { completing iovmax with dying := True }

theorem settled_run :
    ((system iovmax).restrict Completing).Inductive fun s => Wf (completing iovmax) s ∧ Settled s.view :=
  inductive_of_micros (T := completing iovmax) id (fun _ _ h => ⟨fun _ => h.2, fun _ => h.1, nofun, nofun, nofun⟩)
    (fun _ _ _ => ⟨rfl, rfl⟩) fun _ _ hm h => h.micro trivial hm

theorem Wf.cancelling (hs : Wf (completing iovmax) s) : Wf (cancelling iovmax) s := { hs with }

theorem Settled.nodup (h : Settled r) : (r.called.map Prod.fst).Nodup := by
  have hall : (r.pending + r.calledIds).Nodup := by
    rw [h.ids]
    exact requestIds_nodup
  exact Multiset.nodup_of_le (Multiset.le_add_left _ _) hall

theorem Settled.accepted (h : Settled r) (hi : i ∈ r.called.map Prod.fst) : isRequest r.calls i = true := by
  rw [← mem_requestIds, ← Multiset.mem_coe, ← h.ids]
  exact Multiset.mem_add.2 (.inr hi)

theorem Settled.uncalled (h : Settled r) :
    r.pending = ↑((requestIds r.calls).filter fun i => i ∉ r.called.map Prod.fst) := by
  have hall : (r.pending + r.calledIds).Nodup := by
    rw [h.ids]
    exact requestIds_nodup
  have hdisj := (Multiset.nodup_add.1 hall).2.2
  rw [← Multiset.filter_coe, ← h.ids, Multiset.filter_add, Multiset.filter_eq_self.2, Multiset.filter_eq_nil.2, add_zero]
  · exact fun i hi => not_not.2 hi
  · exact fun i hi hc => Multiset.disjoint_left.1 hdisj hi hc

theorem Wf.no_pending (hs : Wf (completing iovmax) s) (hd : s.destroyed = true) :
    s.view = s.reqs none none ∧ s.writeQueue = [] ∧ s.writeCompletedQueue = [] ∧ s.pq = [] := by
  obtain ⟨hpc, -, hsh⟩ := hs.ended hd
  obtain ⟨hq, hc⟩ := hs.flushed trivial (.inr (.inr hd))
  have hcon := hs.unconnected trivial (.inr (.inr hd))
  refine ⟨?_, hq, hc, hs.running.resolve_right fun ⟨c, h⟩ => ?_⟩
  · rw [State.view_eq_all (by rw [hpc]; nofun) (by rw [hpc]; nofun), State.all, State.connectId, State.shutdownId, hcon, hsh]
    rfl
  · rw [hpc] at h
    cases h

theorem Fated.called {e : ℤ} (hs : Wf (completing iovmax) s) (hd : s.destroyed = true)
    (h : Fated i e s.view) : (i, e) ∈ s.called := by
  obtain ⟨-, -, hc, hpq⟩ := hs.no_pending hd
  refine h.resolve_right fun ⟨q, hq, _⟩ => ?_
  have hq : q ∈ s.writeCompletedQueue ++ s.pq := hq
  rw [hc, hpq] at hq
  cases hq

theorem Unfinished.absurd (hs : Wf (completing iovmax) s) (hd : s.destroyed = true) :
    ¬ s.view.Unfinished i := by
  obtain ⟨hview, hq, -⟩ := hs.no_pending hd
  rw [hview]
  intro h
  rcases h with h | h | ⟨q, h, -⟩
  · cases h
  · cases h
  · have h : q ∈ s.writeQueue := h
    rw [hq] at h
    cases h

structure State.Completes (iovmax : ℕ) (s : State) : Prop where
  once : (s.called.map Prod.fst).Nodup
  accepted : ∀ p ∈ s.called, isRequest s.calls p.1 = true
  /-- The call that submits a request starts no callback. -/
  later : ∀ l t, l.isCall = true → step iovmax s l = .ok t → t.called = s.called
  destroyed : s.destroyed = true → ∀ i, isRequest s.calls i = true → ∃ e, (i, e) ∈ s.called
  /-- What is pending where the stream is destroyed is cancelled; a completed write is called with its error. -/
  cancelled : ∀ env t, step iovmax s (.destroy env) = .ok t → ∀ ls u, ((system iovmax).restrict Completing).Run t ls u →
    u.destroyed = true → (∀ i, s.view.Unfinished i → (i, UV_ECANCELED) ∈ u.called) ∧
      ∀ q ∈ s.writeCompletedQueue, (q.id, q.error) ∈ u.called
  active : s.activeReqs = ((requestIds s.calls).filter fun i => i ∉ s.called.map Prod.fst).length

/-- A run from the beginning of `uv__stream_destroy` on. -/
theorem destroy_run {t u : State} {env : Env} {ls : List Label} (hs : Wf (completing iovmax) s)
    (ht : step iovmax s (.destroy env) = .ok t) (hr : ((system iovmax).restrict Completing).Run t ls u) :
    Wf (completing iovmax) u ∧ u.Gone ∧ Micros (cancelling iovmax) s.view u.view := by
  have hkeep : ∀ {a : State} {l : Label}, Completing a l → Dying a l → Keeps (cancelling iovmax) a l := fun hc hd =>
    ⟨fun _ => hc.2, fun _ => hc.1, nofun, fun _ => hd, nofun⟩
  induction hr with
  | nil =>
    obtain ⟨hw, hm⟩ := (step_lib hs.cancelling (fun _ => trivial) (l := .destroy env) (hkeep ⟨trivial, trivial⟩ trivial)).of_ok ht
    refine ⟨{ hw with }, ?_, hm⟩
    have hgone : Sat State.Gone (fun _ => True) (step iovmax s (.destroy env)) :=
      Sat.ite (fun _ => State.streamDestroy_gone) fun _ => trivial
    exact hgone.of_ok ht
  | @snoc a b ls l hr hst ih =>
    obtain ⟨hw, hg, hm⟩ := ih
    have hdying : Dying a l := by
      cases l with
      | destroy => exact trivial
      | _ => exact hw.gone_closed hg
    obtain ⟨hw', hm'⟩ := (step_lib hw.cancelling (fun _ => trivial) (hkeep hst.1 hdying)).of_ok hst.2
    exact ⟨{ hw' with }, hw.gone hg hst.2, hm.trans hm'⟩

/-- **Completion**: in every run that loses no request, each request is called at most once and
only behind its submission, none is left where the stream is destroyed, those that are pending
there are cancelled, and `active_reqs` counts the requests that were not called. -/
theorem completion {iovmax : ℕ} {s : State} (h : ((system iovmax).restrict Completing).Reachable s) : s.Completes iovmax := by
  obtain ⟨hw, hi⟩ := settled_run.reachable h
  refine ⟨hi.nodup, fun p hp => hi.accepted (mem_map_of_mem hp), fun l t hl hst => ?_, fun hd i hreq => ?_,
    fun env t ht ls u hr hd => ?_, ?_⟩
  · exact ((step_calls hl).of_ok hst).2.2
  · obtain ⟨hview, hq, hc, hpq⟩ := hw.no_pending hd
    have hpending : s.view.pending = 0 := by
      rw [hview]
      simp [Reqs.pending, State.reqs, hq, hc, hpq]
    have hids := hi.ids
    rw [hpending, zero_add] at hids
    have hmem : i ∈ s.view.calledIds := by
      rw [hids]
      exact mem_requestIds.2 hreq
    obtain ⟨p, hp, rfl⟩ := mem_map.1 (Multiset.mem_coe.1 hmem)
    exact ⟨p.2, hp⟩
  · obtain ⟨hu, -, hm⟩ := destroy_run hw ht hr
    refine ⟨fun i hun => ?_, fun q hq => ?_⟩
    · have hfate := hm.keep (I := fun r => Fated i UV_ECANCELED r ∨ r.Unfinished i)
        (fun _ _ hm h => Fated.cancelled trivial trivial hm h) (.inr hun)
      exact (hfate.resolve_right (Unfinished.absurd hu hd)).called hu hd
    · have hfate := hm.keep (I := Fated q.id q.error) (fun _ _ hm h => h.micro hm)
        (.inr ⟨q, mem_append_left _ hq, rfl, rfl⟩)
      exact hfate.called hu hd
  · exact hi.active.trans (congrArg Multiset.card hi.uncalled)

/-- A connect, a write and a shutdown, and the stream is closed in the connect callback. -/
theorem completion_three : ∃ s, ((system 1024).restrict Completing).Reachable s ∧ s.destroyed = true ∧
    s.called = [(0, 0), (1, UV_ECANCELED), (2, UV_ECANCELED)] ∧ (s.called.map Prod.fst).Nodup := by
  have h0 : ((system 1024).restrict Completing).Reachable (streamInit .pipe false false) := .init ⟨_, _, _, rfl⟩
  have h1 := h0.next (.pipeConnect true (.ok 3) .inProgress)
    ⟨⟨⟨rfl, fun h => h.elim nofun fun h => h.elim nofun nofun⟩, trivial⟩, rfl⟩
  have h2 := h1.next (.write [[1, 2]] none true true [])
    ⟨⟨fun _ => ⟨rfl, fun _ => rfl⟩, fun _ h => h.elim nofun fun h => h.elim nofun nofun⟩, rfl⟩
  have h3 := h2.next (.shutdown true) ⟨⟨trivial, trivial⟩, rfl⟩
  have h4 := h3.next (.io ⟨false, true, false, false⟩ ⟨[], 0, 0, .again, true⟩) ⟨⟨trivial, trivial⟩, rfl⟩
  have h5 := h4.next .close ⟨⟨trivial, trivial⟩, rfl⟩
  have h6 := h5.next (.ret ⟨[], 0, 0, .again, true⟩) ⟨⟨trivial, trivial⟩, rfl⟩
  have h7 := h6.next (.destroy ⟨[], 0, 0, .again, true⟩) ⟨⟨trivial, trivial⟩, rfl⟩
  have h8 := h7.next (.ret ⟨[], 0, 0, .again, true⟩) ⟨⟨trivial, trivial⟩, rfl⟩
  have h9 := h8.next (.ret ⟨[], 0, 0, .again, true⟩) ⟨⟨trivial, trivial⟩, rfl⟩
  exact ⟨_, h9, rfl, rfl, (completion h9).once⟩

/-- The first of two `uv_pipe_connect` is never called, nor is one in a callback of
`uv__stream_destroy`, and a write without memory for its buffers stays counted. -/
theorem requests_lost :
    (∃ s, (system 1024).Reachable s ∧ s.destroyed = true ∧ s.calls = [.connect true, .connect true] ∧ s.called = [(1, UV_ECANCELED)]) ∧
    (∃ s, (system 1024).Reachable s ∧ s.destroyed = true ∧ s.calls = [.write [[1]] true, .connect true] ∧
      s.called = [(0, UV_ECANCELED)]) ∧ ∃ s, (system 1024).Reachable s ∧ s.calls = [] ∧ s.activeReqs = 1 := by
  refine ⟨?_, ?_, ?_⟩
  · have h0 : (system 1024).Reachable (streamInit .pipe false false) := .init ⟨_, _, _, rfl⟩
    have h1 := h0.next (.pipeConnect true (.ok 3) .inProgress) rfl
    have h2 := h1.next (.pipeConnect true (.ok 3) .inProgress) rfl
    have h3 := h2.next .close rfl
    have h4 := h3.next (.destroy ⟨[], 0, 0, .again, true⟩) rfl
    have h5 := h4.next (.ret ⟨[], 0, 0, .again, true⟩) rfl
    exact ⟨_, h5, rfl, rfl, rfl⟩
  · have h0 : (system 1024).Reachable (streamInit .pipe false false) := .init ⟨_, _, _, rfl⟩
    have h1 := h0.next (.open 3 true true) rfl
    have h2 := h1.next (.write [[1]] none true true [.again]) rfl
    have h3 := h2.next .close rfl
    have h4 := h3.next (.destroy ⟨[], 0, 0, .again, true⟩) rfl
    have h5 := h4.next (.pipeConnect true (.ok 4) .inProgress) rfl
    have h6 := h5.next (.ret ⟨[], 0, 0, .again, true⟩) rfl
    exact ⟨_, h6, rfl, rfl, rfl⟩
  · have h1 : (system 1024).Reachable opened := opened_reachable
    have h2 := h1.next (.write [[1], [2], [3], [4], [5]] none true false []) rfl
    exact ⟨_, h2, rfl, rfl⟩

end Libuv.L3.Stream
