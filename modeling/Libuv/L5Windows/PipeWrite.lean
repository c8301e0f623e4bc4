import Mathlib.Tactic
import Libuv.Core.Fairness

/-!
# Writes to a pipe on Windows (`win/pipe.c`)

`uv__pipe_write_data` submits a write in one of four ways, by the flags of the pipe, and each relies on another agent to
post the completion packet of the request: the function itself, a worker thread (one write after the other, from
`non_overlapped_writes_tail`), the kernel, or a thread that waits for the event of the `OVERLAPPED`. The rule for an
overlapped operation: with the low bit of `hEvent` set no packet is queued, and otherwise one is. The loop takes a packet
and runs `uv__process_pipe_write_req`, in the middle of which the callback may write more.

`agents` holds the requests that a worker, the kernel or a wait will post, `port` those whose packet is posted, and `silent`
those that were accepted and nobody will post. For each request, `accepted` counts the calls that returned 0,
`packets`, `processed` and `calls` what came of them. The pipe is not shut down or closed, and other requests on it
stay as they are. A step whose assertion fails is `none`; `int` and `unsigned int` counters are kept as such.

* `write_completion`: the results, in runs where writes are `Orderly`.
* `never_completed`: a run where one is not.
-/
namespace Libuv.L5.PipeWrite

open List Option Function

/-! ## State -/

/-- `UV_HANDLE_NON_OVERLAPPED_PIPE`, `UV_HANDLE_BLOCKING_WRITES`, `UV_HANDLE_EMULATE_IOCP` -/
structure Flags where
  nonOverlapped : Bool
  blocking : Bool
  emulateIocp : Bool
deriving DecidableEq

/-- The outcome of `WriteFile`; pending is an error too, for a pipe that is not overlapped. -/
inductive WriteResult
  | done
  | pending
  | failed
deriving DecidableEq

/-- The outcomes of the calls of `uv__pipe_write_data`: `uv__malloc`, `WriteFile`, `WaitForSingleObject` and
`RegisterWaitForSingleObject`. -/
structure Outcome where
  alloc : Bool
  result : WriteResult
  wait : Bool
  register : Bool
deriving DecidableEq

structure State (R : Type*) where
  queue : List R
  agents : List R
  port : List R
  silent : List R
  queuedBytes : R → ℕ
  hasCb : R → Bool
  writeQueueSize : ℕ
  reqsPending : ℕ
  writeReqsPending : ℕ
  activecnt : ℕ
  activeReqs : ℕ
  /-- the request whose callback is running -/
  pc : Option R
  accepted : R → ℕ
  packets : R → ℕ
  processed : R → ℕ
  wanted : R → ℕ
  calls : R → ℕ

/-- Of the counters that others use too, the values before the writes. -/
structure Base where
  reqsPending : ℕ
  activecnt : ℕ
  activeReqs : ℕ

def uintMax : ℕ := 2 ^ 32

def intMax : ℕ := 2 ^ 31

def sizeMax : ℕ := 2 ^ 64

variable {R : Type*} [DecidableEq R]

def bump (f : R → ℕ) (r : R) : R → ℕ := Function.update f r (f r + 1)

/-! ## Operations -/

def bytes (bufs : List ℕ) : ℕ := bufs.foldr (· + ·) 0

/-- The length of `write_buf`; several buffers, or one that has to be copied, are put into one, if it is not too
long and there is memory.
mirrors win/pipe.c:1449-1506, 1541-1553 -/
def writeLen (bufs : List ℕ) (copyAlways alloc : Bool) : Option ℕ :=
  if bufs.length = 0 then some 0
  else if bufs.length = 1 ∧ copyAlways = false then some (bytes bufs)
  else if uintMax - 1 < bytes bufs then none
  else if alloc then some (bytes bufs)
  else none

namespace State
variable (s : State R)

/-- `REGISTER_HANDLE_REQ` and the two counters of the pipe; the call returns 0.
mirrors win/pipe.c:1651-1653 -/
def registerReq (r : R) (cb : Bool) : Option (State R) :=
  if s.activecnt + 1 < intMax then
    some { s with
      activecnt := s.activecnt + 1
      activeReqs := (s.activeReqs + 1) % uintMax
      reqsPending := (s.reqsPending + 1) % uintMax
      writeReqsPending := (s.writeReqsPending + 1) % uintMax
      hasCb := Function.update s.hasCb r cb
      accepted := bump s.accepted r
      wanted := if cb then bump s.wanted r else s.wanted }
  else none

def postCompletion (r : R) : State R := { s with port := s.port ++ [r], packets := bump s.packets r }

def completed (r : R) : State R := { s with queuedBytes := Function.update s.queuedBytes r 0 }

def queued (r : R) (len : ℕ) : State R :=
  { s with queuedBytes := Function.update s.queuedBytes r len, writeQueueSize := (s.writeQueueSize + len) % sizeMax }

/-- `uv__queue_non_overlapped_write`
mirrors win/pipe.c:1437-1446 -/
def queueNonOverlappedWrite : State R :=
  match s.queue with
  | [] => s
  | r :: queue => { s with queue := queue, agents := s.agents ++ [r] }

/-- mirrors win/pipe.c:1509-1657 -/
def writeData (f : Flags) (r : R) (bufs : List ℕ) (cb copyAlways : Bool) (o : Outcome) : Option (State R) :=
  match writeLen bufs copyAlways o.alloc with
  | none => some s
  | some len =>
    if f.blocking && f.nonOverlapped then
      if o.result = .done then ((s.completed r).registerReq r cb).map (·.postCompletion r) else some s
    else if f.nonOverlapped then
      let s := { s with queue := s.queue ++ [r] }
      let s := if s.writeReqsPending = 0 then s.queueNonOverlappedWrite else s
      (s.queued r len).registerReq r cb
    else if f.blocking then
      -- the low bit of `hEvent` is set
      match o.result with
      | .failed => some s
      | .done => { s.completed r with silent := s.silent ++ [r] }.registerReq r cb
      | .pending => if o.wait then { s.queued r len with silent := s.silent ++ [r] }.registerReq r cb else some (s.queued r len)
    else
      match o.result with
      | .failed => some s
      | .done =>
        let s := s.completed r
        if f.emulateIocp then if o.register then { s with agents := s.agents ++ [r] }.registerReq r cb else some s
        else (s.postCompletion r).registerReq r cb
      | .pending =>
        let s := s.queued r len
        if f.emulateIocp then if o.register then { s with agents := s.agents ++ [r] }.registerReq r cb else some s
        else { s with agents := s.agents ++ [r] }.registerReq r cb

/-- `uv__process_pipe_write_req` up to the callback.
mirrors win/pipe.c:2052-2088 -/
def processWriteReq (r : R) : Option (State R) :=
  if s.queuedBytes r ≤ s.writeQueueSize ∧ 0 < s.activecnt ∧ 0 < s.activeReqs then
    some { s with
      port := s.port.erase r
      writeQueueSize := s.writeQueueSize - s.queuedBytes r
      activecnt := s.activecnt - 1
      activeReqs := s.activeReqs - 1
      processed := bump s.processed r
      calls := if s.hasCb r then bump s.calls r else s.calls
      pc := some r }
  else none

/-- What is behind the callback.
mirrors win/pipe.c:2089-2103 -/
def afterCallback (f : Flags) : Option (State R) :=
  let s := { s with writeReqsPending := (s.writeReqsPending + (uintMax - 1)) % uintMax, pc := none }
  let more := f.nonOverlapped && !s.queue.isEmpty
  if more && s.writeReqsPending == 0 then none
  else
    let s := if more then s.queueNonOverlappedWrite else s
    if 0 < s.reqsPending then some { s with reqsPending := s.reqsPending - 1 } else none

def flight : List R := s.queue ++ s.agents ++ s.port

end State

/-! ## The system -/

inductive Label (R : Type*)
  | write (r : R) (bufs : List ℕ) (cb copyAlways : Bool) (o : Outcome)
  /-- the agent of the request posts its packet -/
  | post (r : R)
  | process (r : R)
  /-- the callback returns, or there was none -/
  | ret
  /-- something that does not concern the pipe -/
  | other
deriving DecidableEq

def enabled (s : State R) : Label R → Prop
  | .write r _ _ _ _ => r ∉ s.flight ∧ r ∉ s.silent
  | .post r => r ∈ s.agents
  | .process r => s.pc = none ∧ r ∈ s.port
  | .ret => s.pc ≠ none
  | .other => True

instance (s : State R) : (l : Label R) → Decidable (enabled s l)
  | .write r _ _ _ _ => inferInstanceAs (Decidable (r ∉ s.flight ∧ r ∉ s.silent))
  | .post r => inferInstanceAs (Decidable (r ∈ s.agents))
  | .process r => inferInstanceAs (Decidable (s.pc = none ∧ r ∈ s.port))
  | .ret => inferInstanceAs (Decidable (s.pc ≠ none))
  | .other => .isTrue trivial

def step (f : Flags) (s : State R) : Label R → Option (State R)
  | .write r bufs cb copyAlways o => s.writeData f r bufs cb copyAlways o
  | .post r => some ({ s with agents := s.agents.erase r }.postCompletion r)
  | .process r => s.processWriteReq r
  | .ret => s.afterCallback f
  | .other => some s

def initial (R : Type*) (b : Base) : State R :=
  ⟨[], [], [], [], fun _ => 0, fun _ => false, 0, b.reqsPending, 0, b.activecnt, b.activeReqs, none,
    fun _ => 0, fun _ => 0, fun _ => 0, fun _ => 0, fun _ => 0⟩

def system (R : Type*) [DecidableEq R] (f : Flags) (b : Base) : LTS (State R) (Label R) where
  init s := s = initial R b ∧ b.reqsPending < uintMax ∧ b.activecnt < intMax ∧ b.activeReqs < uintMax
  step s l t := enabled s l ∧ step f s l = some t

def Fits (s : State R) (len : ℕ) : Prop :=
  s.activecnt + 1 < intMax ∧ s.activeReqs + 1 < uintMax ∧ s.reqsPending + 1 < uintMax ∧ s.writeReqsPending + 1 < uintMax ∧
    s.writeQueueSize + len < sizeMax

/-- A write that gets as far as to be submitted does not do so with blocking writes on an overlapped pipe, can register its
wait if it is pending, and leaves the counters in range. -/
def Orderly (f : Flags) (s : State R) : Label R → Prop
  | .write _ bufs _ copyAlways o => writeLen bufs copyAlways o.alloc ≠ none →
      o.result ≠ .failed ∨ f.nonOverlapped = true ∧ f.blocking = false →
      (f.blocking = true → f.nonOverlapped = true) ∧
      (f.emulateIocp = true → f.nonOverlapped = false → o.result = .pending → o.register = true) ∧ Fits s (bytes bufs)
  | _ => True

/-! ## The counters -/

theorem bytes_eq_sum (bufs : List ℕ) : bytes bufs = bufs.sum := rfl

theorem writeLen_eq {bufs : List ℕ} {copyAlways alloc : Bool} {len : ℕ} (h : writeLen bufs copyAlways alloc = some len) :
    len = bytes bufs := by
  unfold writeLen at h
  split_ifs at h with h0
  · cases h
    rw [length_eq_zero_iff.1 h0]
    rfl
  all_goals
    cases h
    rfl

variable {f : Flags} {b : Base} {s t : State R} {l l' : List R}

def State.inCallback (s : State R) : ℕ := s.pc.elim 0 fun _ => 1

theorem bump_snoc {g k : R → ℕ} (h : ∀ x, g x = k x + l.count x) (r x : R) : bump g r x = k x + (l ++ [r]).count x := by
  rw [bump]
  rcases eq_or_ne r x with rfl | hx
  · simp [h r, Nat.add_assoc]
  · simp [h x, hx, Ne.symm hx]

/-- The counters say that the requests of the list are in flight. -/
structure Counted (b : Base) (s : State R) (l : List R) : Prop where
  nodup : l.Nodup
  writes : s.writeReqsPending = l.length + s.inCallback
  reqs : s.reqsPending = b.reqsPending + l.length + s.inCallback
  active : s.activecnt = b.activecnt + l.length
  registered : s.activeReqs = b.activeReqs + l.length
  size : s.writeQueueSize = bytes (l.map s.queuedBytes)
  small : s.writeReqsPending < uintMax
  accepted : ∀ r, s.accepted r = s.processed r + l.count r
  wanted : ∀ r, s.wanted r = s.calls r + if r ∈ l ∧ s.hasCb r = true then 1 else 0

theorem Counted.perm (h : Counted b s l) (hp : l.Perm l') : Counted b s l' := by
  refine ⟨hp.nodup_iff.1 h.nodup, hp.length_eq ▸ h.writes, hp.length_eq ▸ h.reqs, hp.length_eq ▸ h.active,
    hp.length_eq ▸ h.registered, ?_, h.small, fun r => ?_, fun r => ?_⟩
  · rw [h.size, bytes_eq_sum, bytes_eq_sum, (hp.map _).sum_eq]
  · rw [h.accepted r, hp.count_eq]
  · simp [h.wanted r, hp.mem_iff]

theorem Counted.lists (h : Counted b s l) (q a p : List R) (pk : R → ℕ) :
    Counted b { s with queue := q, agents := a, port := p, packets := pk } l :=
  ⟨h.nodup, h.writes, h.reqs, h.active, h.registered, h.size, h.small, h.accepted, h.wanted⟩

theorem Counted.register (h : Counted b s l) {r : R} (hr : r ∉ l) {n : ℕ} (hf : Fits s n) (cb : Bool)
    (q a p si : List R) (pk : R → ℕ) :
    ∃ t, ({ s with queuedBytes := update s.queuedBytes r n
                   writeQueueSize := s.writeQueueSize + n
                   queue := q, agents := a, port := p, silent := si, packets := pk } : State R).registerReq r cb = some t ∧
      Counted b t (r :: l) ∧
      t.queue = q ∧ t.agents = a ∧ t.port = p ∧ t.silent = si ∧ t.packets = pk ∧ t.processed = s.processed ∧ t.pc = s.pc := by
  obtain ⟨h1, h2, h3, h4, -⟩ := hf
  refine ⟨_, if_pos h1, ⟨nodup_cons.2 ⟨hr, h.nodup⟩, ?_, ?_, ?_, ?_, ?_, ?_, fun x => ?_, fun x => ?_⟩,
    rfl, rfl, rfl, rfl, rfl, rfl, rfl⟩
  · have := h.writes
    simp only [Nat.mod_eq_of_lt h4, length_cons, State.inCallback] at this ⊢
    omega
  · have := h.reqs
    simp only [Nat.mod_eq_of_lt h3, length_cons, State.inCallback] at this ⊢
    omega
  · have := h.active
    simp only [length_cons]
    omega
  · have := h.registered
    simp only [Nat.mod_eq_of_lt h2, length_cons]
    omega
  · have hmap : l.map (update s.queuedBytes r n) = l.map s.queuedBytes :=
      map_congr_left fun x hx => update_of_ne (ne_of_mem_of_not_mem hx hr) ..
    have := h.size
    simp only [map_cons, update_self, hmap, bytes_eq_sum, sum_cons] at this ⊢
    omega
  · simpa only [Nat.mod_eq_of_lt h4] using h4
  · have := h.accepted x
    by_cases hx : x = r
    · subst hx
      simp only [bump, update_self, count_cons_self]
      omega
    · simp [bump, update_of_ne hx, count_cons_of_ne (Ne.symm hx), this]
  · have := h.wanted x
    by_cases hx : x = r
    · subst hx
      rw [if_neg fun hh => hr hh.1] at this
      cases cb with
      | true => simp [bump, this]
      | false => simp [this]
    · cases cb <;> simp [bump, hx, this]

theorem Counted.process {r : R} (h : Counted b s (r :: l)) (hpc : s.pc = none) :
    ∃ t, s.processWriteReq r = some t ∧ Counted b t l ∧ t.queue = s.queue ∧ t.agents = s.agents ∧ t.port = s.port.erase r ∧
      t.silent = s.silent ∧ t.packets = s.packets ∧ t.processed = bump s.processed r ∧ t.pc = some r := by
  obtain ⟨hr, hn⟩ := nodup_cons.1 h.nodup
  have hw := h.writes
  have hq := h.reqs
  have ha := h.active
  have hg := h.registered
  have hs := h.size
  simp only [State.inCallback, hpc, elim_none, length_cons, map_cons, bytes_eq_sum, sum_cons]
    at hw hq ha hg hs
  refine ⟨_, if_pos ⟨by omega, by omega, by omega⟩, ⟨hn, ?_, ?_, ?_, ?_, ?_, h.small, fun x => ?_, fun x => ?_⟩,
    rfl, rfl, rfl, rfl, rfl, rfl, rfl⟩
  · simp only [State.inCallback, elim_some]
    omega
  · simp only [State.inCallback, elim_some]
    omega
  · simp only
    omega
  · simp only
    omega
  · simp only [bytes_eq_sum]
    omega
  · have := h.accepted x
    by_cases hx : x = r
    · subst hx
      simp only [count_cons_self, bump, update_self] at this ⊢
      omega
    · simpa only [bump, update_of_ne hx, count_cons_of_ne (Ne.symm hx)] using this
  · have := h.wanted x
    by_cases hx : x = r
    · subst hx
      cases hc : s.hasCb x with
      | true => simpa [hr, hc, bump] using this
      | false => simpa [hr, hc] using this
    · cases hc : s.hasCb r <;> simpa [bump, hx, hc] using this

theorem Counted.ret (h : Counted b s l) (hpc : s.pc ≠ none) (q a : List R) : Counted b
    { s with writeReqsPending := s.writeReqsPending - 1, reqsPending := s.reqsPending - 1, pc := none, queue := q
             agents := a } l := by
  obtain ⟨r, hr⟩ := ne_none_iff_exists'.1 hpc
  have hw := h.writes
  have hq := h.reqs
  have hs := h.small
  simp only [State.inCallback, hr, elim_some] at hw hq
  refine ⟨h.nodup, ?_, ?_, h.active, h.registered, h.size, ?_, h.accepted, h.wanted⟩
  · simp only [State.inCallback, elim_none]
    omega
  · simp only [State.inCallback, elim_none]
    omega
  · simp only
    omega

/-! ## The invariant -/

structure Inv (f : Flags) (b : Base) (s : State R) : Prop where
  counted : Counted b s s.flight
  silent : s.silent = []
  mode : s.queue ≠ [] → f.nonOverlapped = true ∧ f.blocking = false
  running : s.queue ≠ [] → s.agents ≠ [] ∨ s.port ≠ [] ∨ s.pc ≠ none
  packets : ∀ r, s.packets r = s.processed r + s.port.count r

/-- What a write can do to the places: it takes at most one place, and none but in the queue if requests wait there. -/
structure Adds (s t : State R) : Prop where
  queue : s.queue <+: t.queue
  agents : s.agents <+: t.agents
  port : s.port <+: t.port
  waits : s.queue ≠ [] → t.agents = s.agents ∧ t.port = s.port
  pc : t.pc = s.pc

omit [DecidableEq R] in
theorem Adds.refl (s : State R) : Adds s s :=
  ⟨prefix_rfl, prefix_rfl, prefix_rfl, fun _ => ⟨rfl, rfl⟩, rfl⟩

theorem State.registerReq_post (s : State R) (r : R) (cb : Bool) :
    (s.registerReq r cb).map (·.postCompletion r) = (s.postCompletion r).registerReq r cb := by
  by_cases h : s.activecnt + 1 < intMax
  · have h' : (s.postCompletion r).activecnt + 1 < intMax := h
    rw [State.registerReq, State.registerReq, if_pos h, if_pos h']
    rfl
  · have h' : ¬ (s.postCompletion r).activecnt + 1 < intMax := h
    rw [State.registerReq, State.registerReq, if_neg h, if_neg h']
    rfl

theorem Inv.placed (h : Inv f b s) (hq : s.queue = []) {r : R} (hr : r ∉ s.flight) {n : ℕ} (hf : Fits s n) (cb : Bool)
    {agents port : List R} {packets : R → ℕ} (ha : s.agents <+: agents) (hp : s.port <+: port)
    (hperm : (r :: s.flight).Perm (agents ++ port)) (hpk : ∀ x, packets x = s.processed x + port.count x) :
    ∃ t, ({ s with queuedBytes := update s.queuedBytes r n
                   writeQueueSize := s.writeQueueSize + n
                   agents := agents, port := port, packets := packets } : State R).registerReq r cb = some t ∧
      Inv f b t ∧ Adds s t := by
  obtain ⟨t, ht, hc, h1, h2, h3, h4, h5, h6, h7⟩ := h.counted.register hr hf cb s.queue agents port s.silent packets
  have hflight : t.flight = agents ++ port := by rw [State.flight, h1, h2, h3, hq, nil_append]
  refine ⟨t, ht, ⟨hc.perm (hflight ▸ hperm), h4.trans h.silent, fun hh => absurd (h1.trans hq) hh,
    fun hh => absurd (h1.trans hq) hh, fun x => ?_⟩, ?_⟩
  · rw [h5, h6, h3]
    exact hpk x
  · exact ⟨hq ▸ nil_prefix, h2 ▸ ha, h3 ▸ hp, fun hh => absurd hq hh, h7⟩

theorem Inv.agent (h : Inv f b s) (hq : s.queue = []) {r : R} (hr : r ∉ s.flight) {n : ℕ} (hf : Fits s n) (cb : Bool) :
    ∃ t, ({ s.queued r n with agents := s.agents ++ [r] } : State R).registerReq r cb = some t ∧ Inv f b t ∧ Adds s t := by
  have hp : (r :: s.flight).Perm (s.agents ++ [r] ++ s.port) := by
    rw [State.flight]
    grind
  obtain ⟨t, ht, hinv, hadds⟩ := h.placed hq hr hf cb (List.prefix_append ..) prefix_rfl hp h.packets
  refine ⟨t, ?_, hinv, hadds⟩
  rw [← ht, State.queued, Nat.mod_eq_of_lt hf.2.2.2.2]

theorem Inv.posted (h : Inv f b s) (hq : s.queue = []) {r : R} (hr : r ∉ s.flight) (hf : Fits s 0) (cb : Bool) :
    ∃ t, ((s.completed r).postCompletion r).registerReq r cb = some t ∧ Inv f b t ∧ Adds s t := by
  have hp : (r :: s.flight).Perm (s.agents ++ (s.port ++ [r])) := by
    rw [State.flight]
    grind
  exact h.placed hq hr hf cb prefix_rfl (List.prefix_append ..) hp (bump_snoc h.packets r)

theorem Inv.insert (h : Inv f b s) (hm : f.nonOverlapped = true ∧ f.blocking = false) {r : R} (hr : r ∉ s.flight) {n : ℕ}
    (hf : Fits s n) (cb : Bool) :
    ∃ t, ((if s.writeReqsPending = 0 then ({ s with queue := s.queue ++ [r] } : State R).queueNonOverlappedWrite
      else { s with queue := s.queue ++ [r] }).queued r n).registerReq r cb = some t ∧ Inv f b t ∧ Adds s t := by
  split_ifs with hw
  · have hl : s.flight = [] := by
      have := h.counted.writes
      exact length_eq_zero_iff.1 (by omega)
    have hq : s.queue = [] := by
      rw [State.flight, append_assoc] at hl
      exact (append_eq_nil_iff.1 hl).1
    simp only [hq, nil_append, State.queueNonOverlappedWrite]
    obtain ⟨t, ht, hi⟩ := h.agent hq hr hf cb
    exact ⟨t, by rw [← ht, State.queued, State.queued, hq], hi⟩
  · obtain ⟨t, ht, hc, h1, h2, h3, h4, h5, h6, h7⟩ :=
      h.counted.register hr hf cb (s.queue ++ [r]) s.agents s.port s.silent s.packets
    have hp : (r :: s.flight).Perm t.flight := by
      rw [State.flight, State.flight]
      grind
    refine ⟨t, ?_, ⟨hc.perm hp, h4.trans h.silent, fun _ => hm, fun _ => ?_, fun x => ?_⟩, ?_⟩
    · rw [← ht, State.queued, Nat.mod_eq_of_lt hf.2.2.2.2]
    · rw [h2, h3, h7]
      by_cases hq : s.queue = []
      · have := h.counted.writes
        by_contra hh
        simp only [not_or, not_not] at hh
        simp only [State.flight, hq, hh.1, hh.2.1, append_nil, length_nil, State.inCallback, hh.2.2,
          elim_none] at this
        exact hw this
      · exact h.running hq
    · rw [h5, h6, h3]
      exact h.packets x
    · exact ⟨h1 ▸ List.prefix_append .., h2 ▸ prefix_rfl, h3 ▸ prefix_rfl, fun _ => ⟨h2, h3⟩, h7⟩

theorem Inv.rejected (h : Inv f b s) : Inv f b s ∧ Adds s s := ⟨h, Adds.refl s⟩

theorem Inv.completed (h : Inv f b s) {r : R} (hr : r ∉ s.flight) : Inv f b (s.completed r) ∧ Adds s (s.completed r) := by
  have hmap : s.flight.map (update s.queuedBytes r 0) = s.flight.map s.queuedBytes :=
    map_congr_left fun x hx => update_of_ne (ne_of_mem_of_not_mem hx hr) ..
  have hc := h.counted
  refine ⟨⟨⟨hc.nodup, hc.writes, hc.reqs, hc.active, hc.registered, ?_, hc.small, hc.accepted, hc.wanted⟩,
    h.silent, h.mode, h.running, h.packets⟩, ⟨prefix_rfl, prefix_rfl, prefix_rfl, fun _ => ⟨rfl, rfl⟩, rfl⟩⟩
  change s.writeQueueSize = bytes (s.flight.map (update s.queuedBytes r 0))
  rw [hmap]
  exact hc.size

omit [DecidableEq R] in
theorem Fits.mono {n m : ℕ} (h : Fits s n) (hm : m ≤ n) : Fits s m := by
  obtain ⟨h1, h2, h3, h4, h5⟩ := h
  exact ⟨h1, h2, h3, h4, by omega⟩

theorem State.completed_eq (hf : Fits s 0) (r : R) : s.completed r = s.queued r 0 := by
  rw [State.queued, Nat.mod_eq_of_lt hf.2.2.2.2]
  rfl

theorem write_spec (h : Inv f b s) {r : R} {bufs : List ℕ} {cb copyAlways : Bool} {o : Outcome} (hr : r ∉ s.flight)
    (ho : Orderly f s (.write r bufs cb copyAlways o)) :
    ∃ t, s.writeData f r bufs cb copyAlways o = some t ∧ Inv f b t ∧ Adds s t := by
  unfold State.writeData
  cases hl : writeLen bufs copyAlways o.alloc with
  | none => exact ⟨s, rfl, h.rejected⟩
  | some len =>
    obtain rfl := writeLen_eq hl
    have ho := ho (by rw [hl]; exact some_ne_none _)
    have hidle (hm : ¬ (f.nonOverlapped = true ∧ f.blocking = false)) : s.queue = [] := by
      by_contra hq
      exact hm (h.mode hq)
    simp only
    cases hn : f.nonOverlapped with
    | true =>
      cases hb : f.blocking with
      | true =>
        simp only [Bool.and_self, if_true]
        split_ifs with hres
        · obtain ⟨-, -, hf⟩ := ho (.inl (by simp [hres]))
          rw [State.registerReq_post]
          exact h.posted (hidle (by simp [hb])) hr (hf.mono (Nat.zero_le _)) cb
        · exact ⟨s, rfl, h.rejected⟩
      | false =>
        obtain ⟨-, -, hf⟩ := ho (.inr ⟨hn, hb⟩)
        exact h.insert ⟨hn, hb⟩ hr hf cb
    | false =>
      simp only [Bool.and_false, Bool.false_eq_true, if_false]
      have hq := hidle (by simp [hn])
      cases hres : o.result with
      | failed =>
        simp only [ite_self]
        exact ⟨s, rfl, h.rejected⟩
      | done =>
        obtain ⟨hb, hw, hf⟩ := ho (.inl (by simp [hres]))
        have hb : f.blocking = false := Bool.eq_false_iff.2 fun hb => by simp [hb, hn] at *
        simp only [hb, Bool.false_eq_true, if_false]
        split_ifs
        · have hf := hf.mono (Nat.zero_le _)
          rw [State.completed_eq hf]
          exact h.agent hq hr hf cb
        · exact ⟨_, rfl, h.completed hr⟩
        · exact h.posted hq hr (hf.mono (Nat.zero_le _)) cb
      | pending =>
        obtain ⟨hb, hw, hf⟩ := ho (.inl (by simp [hres]))
        have hb : f.blocking = false := Bool.eq_false_iff.2 fun hb => by simp [hb, hn] at *
        simp only [hb, Bool.false_eq_true, if_false]
        split_ifs with he hg
        · exact h.agent hq hr hf cb
        · exact absurd (hw he hn hres) hg
        · exact h.agent hq hr hf cb

theorem post_spec (h : Inv f b s) {r : R} (hr : r ∈ s.agents) :
    Inv f b ({ s with agents := s.agents.erase r }.postCompletion r) := by
  have hp : s.flight.Perm (s.queue ++ s.agents.erase r ++ (s.port ++ [r])) := by
    rw [State.flight]
    grind
  refine ⟨?_, h.silent, h.mode, fun _ => .inr (.inl (by simp [State.postCompletion])), bump_snoc h.packets r⟩
  exact (h.counted.lists s.queue (s.agents.erase r) (s.port ++ [r]) (bump s.packets r)).perm hp

theorem process_spec (h : Inv f b s) {r : R} (hpc : s.pc = none) (hr : r ∈ s.port) :
    ∃ t, s.processWriteReq r = some t ∧ Inv f b t ∧ t.queue = s.queue ∧ t.agents = s.agents ∧ t.port = s.port.erase r ∧
      t.pc = some r := by
  have hp : s.flight.Perm (r :: (s.queue ++ s.agents ++ s.port.erase r)) := by
    rw [State.flight]
    grind
  obtain ⟨t, ht, hc, h1, h2, h3, h4, h5, h6, h7⟩ := (h.counted.perm hp).process hpc
  refine ⟨t, ht, ⟨?_, h4.trans h.silent, fun hh => h.mode (h1 ▸ hh), fun _ => .inr (.inr (by simp [h7])), fun x => ?_⟩,
    h1, h2, h3, h7⟩
  · rwa [State.flight, h1, h2, h3]
  have := h.packets x
  rw [h5, h6, h3]
  rcases eq_or_ne x r with rfl | hx
  · have := count_pos_iff.2 hr
    simp only [bump, update_self, count_erase_self]
    omega
  · simpa only [bump, update_of_ne hx, count_erase_of_ne hx] using this

theorem ret_spec (h : Inv f b s) (hpc : s.pc ≠ none) :
    ∃ t, s.afterCallback f = some t ∧ Inv f b t ∧ t.port = s.port ∧ t.pc = none ∧
    (s.queue = [] ∧ t.queue = [] ∧ t.agents = s.agents ∨ ∃ x, s.queue = x :: t.queue ∧ t.agents = s.agents ++ [x]) := by
  have hc := h.counted
  obtain ⟨r, hr⟩ := ne_none_iff_exists'.1 hpc
  have hw := hc.writes
  have hq := hc.reqs
  simp only [State.inCallback, hr, elim_some] at hw hq
  have hmod : (s.writeReqsPending + (uintMax - 1)) % uintMax = s.writeReqsPending - 1 := by
    have := hc.small
    have e : s.writeReqsPending + (uintMax - 1) = s.writeReqsPending - 1 + uintMax := by omega
    rw [e, Nat.add_mod_right, Nat.mod_eq_of_lt (by omega)]
  have hpos : 0 < s.reqsPending := by omega
  unfold State.afterCallback
  rw [hmod]
  cases hl : s.queue with
  | nil =>
    simp only [isEmpty_nil, Bool.not_true, Bool.and_false, Bool.false_and, Bool.false_eq_true, if_false, if_pos hpos]
    have hp : s.flight.Perm ([] ++ s.agents ++ s.port) := by rw [State.flight, hl]
    refine ⟨_, rfl, ⟨?_, h.silent, fun hh => absurd rfl hh, fun hh => absurd rfl hh, h.packets⟩, rfl, rfl,
      .inl ⟨trivial, rfl, rfl⟩⟩
    exact (hc.ret hpc [] s.agents).perm hp
  | cons x q =>
    have hm : f.nonOverlapped = true ∧ f.blocking = false := h.mode (by simp [hl])
    have hne : (s.writeReqsPending - 1 == 0) = false := by
      have : 0 < s.flight.length := by simp [State.flight, hl]
      rw [beq_eq_false_iff_ne]
      omega
    simp only [hm.1, isEmpty_cons, Bool.not_false, Bool.and_self, hne, Bool.and_false, Bool.false_eq_true, if_false, if_true,
      State.queueNonOverlappedWrite, if_pos hpos]
    have hp : s.flight.Perm (q ++ (s.agents ++ [x]) ++ s.port) := by
      rw [State.flight]
      grind
    refine ⟨_, rfl, ⟨?_, h.silent, fun _ => hm, fun _ => .inl (by simp), h.packets⟩, rfl, rfl, .inr ⟨x, rfl, rfl⟩⟩
    exact (hc.ret hpc q (s.agents ++ [x])).perm hp

theorem initial_inv (f : Flags) (b : Base) : Inv f b (initial R b) := by
  refine ⟨⟨nodup_nil, rfl, rfl, rfl, rfl, rfl, ?_, fun _ => rfl, fun _ => ?_⟩,
    rfl, fun hh => absurd rfl hh, fun hh => absurd rfl hh, fun _ => rfl⟩
  · show 0 < uintMax
    decide
  · simp [initial, State.flight]

theorem step_spec (h : Inv f b s) {l : Label R} (he : enabled s l) (ho : Orderly f s l) :
    ∃ t, step f s l = some t ∧ Inv f b t := by
  cases l with
  | write r bufs cb copyAlways o =>
    obtain ⟨t, ht, hi, -⟩ := write_spec h he.1 ho
    exact ⟨t, ht, hi⟩
  | post r => exact ⟨_, rfl, post_spec h he⟩
  | process r =>
    obtain ⟨t, ht, hi, -⟩ := process_spec h he.1 he.2
    exact ⟨t, ht, hi⟩
  | ret =>
    obtain ⟨t, ht, hi, -⟩ := ret_spec h he
    exact ⟨t, ht, hi⟩
  | other => exact ⟨s, rfl, h⟩

theorem inv_inductive (f : Flags) (b : Base) : ((system R f b).restrict (Orderly f)).Inductive (Inv f b) where
  init := by
    rintro s ⟨rfl, -⟩
    exact initial_inv f b
  step := by
    rintro s l t h ⟨ho, he, ht⟩
    obtain ⟨t', ht', hi⟩ := step_spec h he ho
    rw [ht] at ht'
    cases ht'
    exact hi

/-! ## Each request is processed -/

inductive Thread (R : Type*)
  /-- the agent of a request, and the loop when it takes the packet -/
  | request (r : R)
  | callback
  /-- writes, which nothing forces to happen -/
  | user
deriving DecidableEq

def Label.thread : Label R → Thread R
  | .post r | .process r => .request r
  | .ret => .callback
  | .write .. | .other => .user

def active : Thread R → State R → Prop
  | .request r, s => r ∈ s.agents ∨ r ∈ s.port
  | .callback, s => s.pc ≠ none
  | .user, _ => False

instance : (p : Thread R) → (s : State R) → Decidable (active p s)
  | .request r, s => inferInstanceAs (Decidable (r ∈ s.agents ∨ r ∈ s.port))
  | .callback, s => inferInstanceAs (Decidable (s.pc ≠ none))
  | .user, _ => .isFalse id

/-- How far a request that waits is from a worker. -/
def State.ahead (s : State R) (r : R) : ℕ := 4 * s.queue.idxOf r + 3 * s.agents.length + 2 * s.port.length + s.inCallback

theorem ahead_step (h : Inv f b s) {r : R} (hr : r ∈ s.queue) {l : Label R} (he : enabled s l) (ho : Orderly f s l)
    (ht : step f s l = some t) : (r ∈ t.agents ∨ r ∈ t.port) ∨ r ∈ t.queue ∧ (t.ahead r < s.ahead r ∨
      t.ahead r = s.ahead r ∧ l.thread = .user ∧ ∀ p, active p s → active p t) := by
  have hne : s.queue ≠ [] := ne_nil_of_mem hr
  cases l with
  | write r' bufs cb copyAlways o =>
    obtain ⟨t', ht', -, ha⟩ := write_spec h he.1 ho
    obtain rfl := some.inj (ht'.symm.trans ht)
    obtain ⟨e1, e2⟩ := ha.waits hne
    obtain ⟨q, hq⟩ := ha.queue
    right
    refine ⟨ha.queue.subset hr, .inr ⟨?_, rfl, fun p hp => ?_⟩⟩
    · simp [State.ahead, e1, e2, State.inCallback, ha.pc, ← hq, idxOf_append_of_mem hr]
    · cases p with
      | user => exact hp.elim
      | request | callback => simpa only [active, e1, e2, ha.pc] using hp
  | post r' =>
    cases ht
    have := length_erase_of_mem he
    have := length_pos_of_mem he
    right
    refine ⟨hr, .inl ?_⟩
    simp only [State.ahead, State.postCompletion, State.inCallback, length_append, length_singleton]
    omega
  | process r' =>
    obtain ⟨t', ht', -, e1, e2, e3, e4⟩ := process_spec h he.1 he.2
    obtain rfl := some.inj (ht'.symm.trans ht)
    have := length_erase_of_mem he.2
    have := length_pos_of_mem he.2
    right
    refine ⟨e1 ▸ hr, .inl ?_⟩
    simp only [State.ahead, e1, e2, e3, State.inCallback, e4, he.1, elim_some, elim_none]
    omega
  | ret =>
    obtain ⟨t', ht', -, e3, e4, hq⟩ := ret_spec h he
    obtain rfl := some.inj (ht'.symm.trans ht)
    rcases hq with ⟨hq, -⟩ | ⟨x, hq, e2⟩
    · exact absurd hq hne
    · rcases eq_or_ne x r with rfl | hx
      · exact .inl (.inl (by simp [e2]))
      · right
        rw [hq] at hr
        refine ⟨(mem_cons.1 hr).resolve_left (Ne.symm hx), .inl ?_⟩
        simp only [State.ahead, e2, e3, hq, idxOf_cons_ne _ hx, length_append, length_singleton,
          State.inCallback, e4, elim_none]
        omega
  | other =>
    cases ht
    exact .inr ⟨hr, .inr ⟨rfl, rfl, fun p hp => hp⟩⟩

theorem Inv.disjoint (h : Inv f b s) {r : R} (ha : r ∈ s.agents) : r ∉ s.port := fun hp => by
  have := h.counted.nodup
  exact (nodup_append.1 this).2.2 r (mem_append_right _ ha) r hp rfl

/-- How far a request with an agent is from being processed. -/
def State.unposted (s : State R) (r : R) : ℕ := if r ∈ s.port then 0 else 1

theorem unposted_step (h : Inv f b s) {r : R} (hr : r ∈ s.agents ∨ r ∈ s.port) {l : Label R} (he : enabled s l)
    (ho : Orderly f s l) (ht : step f s l = some t) : l = .process r ∨ (r ∈ t.agents ∨ r ∈ t.port) ∧ (t.unposted r < s.unposted r ∨
      t.unposted r = s.unposted r ∧ l.thread ≠ .request r) := by
  -- a request that stays where it is
  have hkeep (hi : Inv f b t) (ha : s.agents ⊆ t.agents) (hp : s.port ⊆ t.port) :
      (r ∈ t.agents ∨ r ∈ t.port) ∧ t.unposted r = s.unposted r := by
    rcases hr with hr | hr
    · exact ⟨.inl (ha hr), by rw [State.unposted, State.unposted, if_neg (h.disjoint hr), if_neg (hi.disjoint (ha hr))]⟩
    · exact ⟨.inr (hp hr), by rw [State.unposted, State.unposted, if_pos hr, if_pos (hp hr)]⟩
  cases l with
  | write r' bufs cb copyAlways o =>
    obtain ⟨t', ht', hi, ha⟩ := write_spec h he.1 ho
    obtain rfl := some.inj (ht'.symm.trans ht)
    obtain ⟨h1, h2⟩ := hkeep hi ha.agents.subset ha.port.subset
    exact .inr ⟨h1, .inr ⟨h2, by simp [Label.thread]⟩⟩
  | post r' =>
    cases ht
    right
    rcases eq_or_ne r' r with rfl | hx
    · refine ⟨.inr (by simp [State.postCompletion]), .inl ?_⟩
      simp [State.unposted, State.postCompletion, h.disjoint he]
    · have hm : r ∈ s.agents.erase r' ↔ r ∈ s.agents := mem_erase_of_ne (Ne.symm hx)
      simp only [State.unposted, State.postCompletion, mem_append, mem_singleton, Ne.symm hx, or_false, hm]
      exact ⟨hr, .inr ⟨trivial, by simpa [Label.thread] using hx⟩⟩
  | process r' =>
    obtain ⟨t', ht', -, -, e2, e3, -⟩ := process_spec h he.1 he.2
    obtain rfl := some.inj (ht'.symm.trans ht)
    rcases eq_or_ne r' r with rfl | hx
    · exact .inl rfl
    · right
      have hm : r ∈ s.port.erase r' ↔ r ∈ s.port := mem_erase_of_ne (Ne.symm hx)
      simp only [State.unposted, e2, e3, hm]
      exact ⟨hr, .inr ⟨trivial, by simpa [Label.thread] using hx⟩⟩
  | ret =>
    obtain ⟨t', ht', hi, e3, -, hq⟩ := ret_spec h he
    obtain rfl := some.inj (ht'.symm.trans ht)
    have hsub : s.agents ⊆ t'.agents := by
      rcases hq with ⟨-, -, e2⟩ | ⟨x, -, e2⟩
      · rw [e2]
        exact fun _ hx => hx
      · rw [e2]
        exact subset_append_left ..
    obtain ⟨h1, h2⟩ := hkeep hi hsub (e3 ▸ fun _ hx => hx)
    exact .inr ⟨h1, .inr ⟨h2, by simp [Label.thread]⟩⟩
  | other =>
    cases ht
    exact .inr ⟨hr, .inr ⟨rfl, by simp [Label.thread]⟩⟩

theorem leaves_queue (ρ : ((system R f b).restrict (Orderly f)).InfRun) (hfair : ρ.Fair Label.thread active) (r : R) (n : ℕ)
    (hr : r ∈ (ρ.state n).queue) : ∃ m, n ≤ m ∧ (r ∈ (ρ.state m).agents ∨ r ∈ (ρ.state m).port) := by
  have hinv (u : State R) (hu : ((system R f b).restrict (Orderly f)).Reachable u) : Inv f b u := (inv_inductive f b).reachable hu
  have hgo : ∃ m, n ≤ m ∧ (r ∈ (ρ.state (m + 1)).agents ∨ r ∈ (ρ.state (m + 1)).port) := by
    refine ρ.leads_to (fun u => r ∈ u.queue) active (·.ahead r) (fun _ _ v => r ∈ v.agents ∨ r ∈ v.port) hfair
      (fun _ _ _ _ hp => hp) (fun u hu hP => ?_) (fun u l v hu hP hst => ?_) n hr
    · rcases (hinv u hu).running (ne_nil_of_mem hP) with ha | hp | hc
      · obtain ⟨x, hx⟩ := exists_mem_of_ne_nil _ ha
        exact ⟨.request x, .inl hx⟩
      · obtain ⟨x, hx⟩ := exists_mem_of_ne_nil _ hp
        exact ⟨.request x, .inr hx⟩
      · exact ⟨.callback, hc⟩
    · obtain ⟨ho, he, ht⟩ := hst
      rcases ahead_step (hinv u hu) hP he ho ht with hq | ⟨hq, hlt | ⟨heq, hl, ha⟩⟩
      · exact .inl hq
      · exact .inr ⟨hq, .inl hlt⟩
      · refine .inr ⟨hq, .inr ⟨heq, fun p hp => ⟨?_, ha p hp⟩⟩⟩
        rw [hl]
        rintro rfl
        exact hp
  obtain ⟨m, hm, hq⟩ := hgo
  exact ⟨m + 1, by omega, hq⟩

theorem is_processed (ρ : ((system R f b).restrict (Orderly f)).InfRun) (hfair : ρ.Fair Label.thread active) (r : R) (n : ℕ)
    (hr : r ∈ (ρ.state n).agents ∨ r ∈ (ρ.state n).port) : ∃ m, n ≤ m ∧ ρ.label m = .process r := by
  have hinv (u : State R) (hu : ((system R f b).restrict (Orderly f)).Reachable u) : Inv f b u := (inv_inductive f b).reachable hu
  refine ρ.leads_to_by (fun u => r ∈ u.agents ∨ r ∈ u.port) (·.unposted r) (fun _ l _ => l = .process r) (Thread.request r)
    hfair (fun u _ (hP : r ∈ u.agents ∨ r ∈ u.port) => hP) (fun u l v hu hP hst => ?_) n hr
  obtain ⟨ho, he, ht⟩ := hst
  exact unposted_step (hinv u hu) hP he ho ht

/-- Every accepted write has had its packet, is processed and has had its callback, except for those still in flight. -/
structure Accounted (b : Base) (s : State R) : Prop where
  once : ∀ r, s.flight.count r ≤ 1
  packets : ∀ r, s.accepted r = s.packets r + (s.queue ++ s.agents).count r
  processed : ∀ r, s.packets r = s.processed r + s.port.count r
  calls : ∀ r, s.wanted r = s.calls r + if r ∈ s.flight ∧ s.hasCb r = true then 1 else 0
  idle : s.flight = [] → s.pc = none → s.reqsPending = b.reqsPending ∧ s.writeReqsPending = 0 ∧ s.writeQueueSize = 0 ∧
    s.activecnt = b.activecnt ∧ s.activeReqs = b.activeReqs

theorem Inv.accounted (h : Inv f b s) : Accounted b s := by
  have hc := h.counted
  refine ⟨nodup_iff_count_le_one.1 hc.nodup, fun r => ?_, h.packets, hc.wanted, fun hl hp => ?_⟩
  · have h1 := hc.accepted r
    have h2 := h.packets r
    rw [State.flight, count_append] at h1
    omega
  · have h1 := hc.reqs
    have h2 := hc.writes
    have h3 := hc.active
    have h4 := hc.registered
    have h5 := hc.size
    simp only [hl, hp, State.inCallback, elim_none, length_nil, map_nil] at h1 h2 h3 h4 h5
    exact ⟨h1, h2, h5, h3, h4⟩

/-- **Write completion.** Where writes are orderly, no assertion fails, every accepted write has one packet, is processed once and
has one callback, the counters return to what they were, and in a fair run every accepted write is processed. -/
theorem write_completion (R : Type*) [DecidableEq R] (f : Flags) (b : Base) :
    (∀ ls s, ((system R f b).restrict (Orderly f)).History ls s →
      Accounted b s ∧ s.silent = [] ∧ ∀ l, enabled s l → Orderly f s l → step f s l ≠ none) ∧
    ∀ ρ : ((system R f b).restrict (Orderly f)).InfRun, ρ.Fair Label.thread active →
      ∀ n r, r ∈ (ρ.state n).flight → ∃ m, n ≤ m ∧ ρ.label m = .process r := by
  refine ⟨fun ls s h => ?_, fun ρ hfair n r hr => ?_⟩
  · have hi := (inv_inductive f b).reachable ⟨ls, h⟩
    refine ⟨hi.accounted, hi.silent, fun l he ho => ?_⟩
    obtain ⟨t, ht, -⟩ := step_spec hi he ho
    simp [ht]
  · rw [State.flight, append_assoc, mem_append, mem_append] at hr
    rcases hr with hq | hr
    · obtain ⟨m, hm, ha⟩ := leaves_queue ρ hfair r n hq
      obtain ⟨k, hk, hl⟩ := is_processed ρ hfair r m ha
      exact ⟨k, hm.trans hk, hl⟩
    · exact is_processed ρ hfair r n hr

/-! ## Runs -/

def workerPipe : Flags := ⟨true, false, false⟩

def workerLabels : ℕ → Label Bool
  | 0 => .write false [3] true false ⟨true, .pending, true, true⟩
  | 1 => .write true [4, 5] true false ⟨true, .pending, true, true⟩
  | 2 => .post false
  | 3 => .process false
  | 4 => .ret
  | 5 => .post true
  | 6 => .process true
  | 7 => .ret
  | _ + 8 => .other

omit [DecidableEq R] in
theorem fits_small {n : ℕ} (hs : s.activecnt < 9 ∧ s.activeReqs < 9 ∧ s.reqsPending < 9 ∧ s.writeReqsPending < 9 ∧
    s.writeQueueSize < 9) (hn : n < 10) : Fits s n := by
  simp only [Fits, intMax, uintMax, sizeMax]
  omega

def workerRun : ((system Bool workerPipe ⟨0, 0, 0⟩).restrict (Orderly workerPipe)).InfRun where
  state := LTS.follow (step workerPipe) (initial Bool ⟨0, 0, 0⟩) workerLabels
  label := workerLabels
  init := ⟨rfl, by decide⟩
  step n := by
    rcases Nat.lt_or_ge n 8 with hn | hn
    · interval_cases n
      · exact ⟨fun _ _ => ⟨by simp [workerPipe], by simp [workerPipe], fits_small (by decide) (by decide)⟩, by decide, rfl⟩
      · exact ⟨fun _ _ => ⟨by simp [workerPipe], by simp [workerPipe], fits_small (by decide) (by decide)⟩, by decide, rfl⟩
      · exact ⟨trivial, by decide, rfl⟩
      · exact ⟨trivial, by decide, rfl⟩
      · exact ⟨trivial, by decide, rfl⟩
      · exact ⟨trivial, by decide, rfl⟩
      · exact ⟨trivial, by decide, rfl⟩
      · exact ⟨trivial, by decide, rfl⟩
    · obtain ⟨k, rfl⟩ := Nat.exists_eq_add_of_le' hn
      exact ⟨trivial, trivial, rfl⟩

theorem workerRun_late {n : ℕ} (hn : 8 ≤ n) : (workerRun.state n).agents = [] ∧ (workerRun.state n).port = [] ∧
    (workerRun.state n).pc = none := by
  induction n, hn using Nat.le_induction with
  | base => exact ⟨rfl, rfl, rfl⟩
  | succ n hn ih =>
    obtain ⟨k, rfl⟩ := Nat.exists_eq_add_of_le' hn
    exact ih

theorem workerRun_fair : workerRun.Fair Label.thread active := by
  intro p n ha
  rcases Nat.lt_or_ge n 8 with hn | hn
  · cases p with
    | request r =>
      cases r with
      | false =>
        rcases Nat.lt_or_ge n 4 with h4 | h4
        · exact ⟨3, by omega, rfl⟩
        · interval_cases n <;> exact absurd ha (by decide)
      | true =>
        rcases Nat.lt_or_ge n 7 with h7 | h7
        · exact ⟨6, by omega, rfl⟩
        · interval_cases n
          exact absurd ha (by decide)
    | callback => exact ⟨7, by omega, rfl⟩
    | user => exact ha.elim
  · obtain ⟨h1, h2, h3⟩ := workerRun_late hn
    cases p with
    | request r => simp [active, h1, h2] at ha
    | callback => exact absurd h3 ha
    | user => exact ha.elim

theorem write_completion_two : (workerRun.state 2).queue = [true] ∧ Accounted ⟨0, 0, 0⟩ (workerRun.state 8) ∧
    ∃ m, 2 ≤ m ∧ workerRun.label m = .process true := by
  obtain ⟨hsafe, hlive⟩ := write_completion Bool workerPipe ⟨0, 0, 0⟩
  exact ⟨rfl, (hsafe _ _ (workerRun.history 8)).1, hlive workerRun workerRun_fair 2 true (by decide)⟩

def blockingPipe : Flags := ⟨false, true, false⟩

/-- **Blocking writes on an overlapped pipe**: the write is accepted, and nobody posts its packet. -/
theorem never_completed : ∃ ρ : (system Bool blockingPipe ⟨0, 0, 0⟩).InfRun, ρ.Fair Label.thread active ∧ ∀ n, 1 ≤ n →
    (ρ.state n).accepted false = 1 ∧ (ρ.state n).packets false = 0 ∧ (ρ.state n).processed false = 0 ∧
    (ρ.state n).wanted false = 1 ∧ (ρ.state n).calls false = 0 ∧ (ρ.state n).reqsPending = 1 ∧ (ρ.state n).activecnt = 1 := by
  have h0 : (system Bool blockingPipe ⟨0, 0, 0⟩).History [] (initial Bool ⟨0, 0, 0⟩) := .nil ⟨rfl, by decide⟩
  have h1 := h0.snoc (l := .write false [3] true false ⟨true, .pending, true, true⟩) ⟨by decide, rfl⟩
  obtain ⟨ρ, -, hs⟩ := h1.forever (l := .other) ⟨by decide, rfl⟩
  refine ⟨ρ, fun p n ha => ?_, fun n hn => ?_⟩
  · have hno (t : State Bool) (h : t.agents = [] ∧ t.port = [] ∧ t.pc = none) : ¬ active p t := by
      cases p <;> simp [active, h]
    rcases Nat.eq_zero_or_pos n with rfl | hn
    · rw [ρ.init.1] at ha
      exact absurd ha (hno _ ⟨rfl, rfl, rfl⟩)
    · rw [hs n hn] at ha
      exact absurd ha (hno _ ⟨rfl, rfl, rfl⟩)
  · rw [hs n hn]
    exact ⟨rfl, rfl, rfl, rfl, rfl, rfl, rfl⟩

end Libuv.L5.PipeWrite
