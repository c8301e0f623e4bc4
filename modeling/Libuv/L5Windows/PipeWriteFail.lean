import Libuv.L5Windows.PipeWrite

/-!
# Failed writes to a pipe on Windows (`win/pipe.c`)

`uv__pipe_write_data` again, with what it allocates: the event of the `OVERLAPPED`, the block with the copy of the buffers and of
the request, and the operation that `WriteFile` leaves to the kernel. Which of the calls in it fail is an argument.

* `uvPipeWriteData_state`: what it does to the pipe is `PipeWrite.State.writeData`.
* `failure_iff`: the failures that leave nothing behind. A sibling of a path that closes the event does not, no path
  frees the block, and after a failed wait or registration the kernel still has the operation.
-/
namespace Libuv.L5.PipeWriteFail

open PipeWrite

inductive Err
  | enobufs
  | malloc
  | writeFile
  | wait
  | register
deriving DecidableEq

/-- The pipe, and what the call has created, closed, allocated and freed so far. `outstanding` counts the operations of the
kernel with the `OVERLAPPED` of the request. -/
structure Call (R : Type*) where
  s : State R
  events : ℕ
  closes : ℕ
  blocks : ℕ
  frees : ℕ
  outstanding : ℕ

variable {R : Type*} [DecidableEq R]

namespace Call
variable (c : Call R)

def createEvent : Call R := { c with events := c.events + 1 }

def closeEvent : Call R := { c with closes := c.closes + 1 }

def malloc : Call R := { c with blocks := c.blocks + 1 }

/-- `ERROR_IO_PENDING` -/
def start : Call R := { c with outstanding := c.outstanding + 1 }

def waited : Call R := { c with outstanding := c.outstanding - 1 }

def withState (s : State R) : Call R := { c with s := s }

/-- A return of 0, behind `REGISTER_HANDLE_REQ` and the counters. -/
def register (r : R) (cb : Bool) : Option (Call R × Option Err) := (c.s.registerReq r cb).map fun s => (c.withState s, none)

end Call

/-- More than one buffer, or one that has to be copied. -/
def coalesced (bufs : List ℕ) (copyAlways : Bool) : Bool := !(bufs.length == 0 || bufs.length == 1 && !copyAlways)

/-- `uv__build_coalesced_write_req`
mirrors win/pipe.c:1449-1506, 1543-1553 -/
def coalesce (bufs : List ℕ) (copyAlways : Bool) (o : Outcome) (c : Call R) : Except Err (Call R) :=
  if coalesced bufs copyAlways then
    if uintMax - 1 < bytes bufs then .error .enobufs
    else if o.alloc then .ok c.malloc
    else .error .malloc
  else .ok c

/-- The branches by the flags of the pipe.
mirrors win/pipe.c:1555-1657 -/
def submit (f : Flags) (r : R) (len : ℕ) (cb : Bool) (o : Outcome) (c : Call R) : Option (Call R × Option Err) :=
  if f.blocking && f.nonOverlapped then
    if o.result = .done then
      ((c.s.completed r).registerReq r cb).map fun s => (c.withState (s.postCompletion r), none)
    else some (c, some .writeFile)
  else if f.nonOverlapped then
    let s := { c.s with queue := c.s.queue ++ [r] }
    let s := if s.writeReqsPending = 0 then s.queueNonOverlappedWrite else s
    (c.withState (s.queued r len)).register r cb
  else if f.blocking then
    match o.result with
    | .failed => some (c.closeEvent, some .writeFile)
    | .done =>
      let c := c.withState { c.s.completed r with silent := c.s.silent ++ [r] }
      c.closeEvent.register r cb
    | .pending =>
      let c := (c.withState (c.s.queued r len)).start
      if o.wait then
        let c := c.waited
        let c := c.closeEvent
        (c.withState { c.s with silent := c.s.silent ++ [r] }).register r cb
      else some (c.closeEvent, some .wait)
  else
    match o.result with
    | .failed => some (c, some .writeFile)
    | .done =>
      let c := c.withState (c.s.completed r)
      if f.emulateIocp then
        if o.register then (c.withState { c.s with agents := c.s.agents ++ [r] }).register r cb else some (c, some .register)
      else (c.withState (c.s.postCompletion r)).register r cb
    | .pending =>
      let c := (c.withState (c.s.queued r len)).start
      if f.emulateIocp then
        if o.register then (c.withState { c.s with agents := c.s.agents ++ [r] }).register r cb else some (c, some .register)
      else (c.withState { c.s with agents := c.s.agents ++ [r] }).register r cb

/-- mirrors win/pipe.c:1509-1657 -/
def uvPipeWriteData (f : Flags) (r : R) (bufs : List ℕ) (cb copyAlways : Bool) (o : Outcome) (s : State R) :
    Option (Call R × Option Err) :=
  let c : Call R := ⟨s, 0, 0, 0, 0, 0⟩
  let c := if f.emulateIocp || f.blocking then c.createEvent else c
  match coalesce bufs copyAlways o c with
  | .error e => some (c, some e)
  | .ok c => submit f r (bytes bufs) cb o c

/-- The counters and the registered requests are as before, what the call has created it has released once, and the
kernel has nothing of it. -/
structure Clean (s : State R) (c : Call R) : Prop where
  writeQueueSize : c.s.writeQueueSize = s.writeQueueSize
  reqsPending : c.s.reqsPending = s.reqsPending
  writeReqsPending : c.s.writeReqsPending = s.writeReqsPending
  activecnt : c.s.activecnt = s.activecnt
  activeReqs : c.s.activeReqs = s.activeReqs
  event : c.closes = c.events
  block : c.frees = c.blocks
  outstanding : c.outstanding = 0

variable {f : Flags} {r : R} {bufs : List ℕ} {cb copyAlways : Bool} {o : Outcome} {s : State R} {c : Call R} {e : Err}

/-! ## The pipe -/

theorem writeLen_eq_coalesced (bufs : List ℕ) (copyAlways : Bool) (o : Outcome) : writeLen bufs copyAlways o.alloc =
    if coalesced bufs copyAlways then (if uintMax - 1 < bytes bufs then none else if o.alloc then some (bytes bufs) else none)
    else some (bytes bufs) := by
  match bufs with
  | [] => rfl
  | [n] => cases copyAlways <;> rfl
  | n :: m :: l => rfl

theorem register_state : (c.register r cb).map (fun p => p.1.s) = c.s.registerReq r cb := by
  rw [Call.register, Option.map_map]
  exact Option.map_id'

theorem submit_state {len : ℕ} (hl : writeLen bufs copyAlways o.alloc = some len) :
    (submit f r len cb o c).map (fun p => p.1.s) = c.s.writeData f r bufs cb copyAlways o := by
  simp only [State.writeData, hl, submit]
  by_cases hb : (f.blocking && f.nonOverlapped) = true
  · simp only [hb, if_true]
    by_cases ho : o.result = .done
    · simp only [ho, if_true, Option.map_map]
      rfl
    · simp only [ho, if_false]
      rfl
  simp only [hb]
  by_cases hn : f.nonOverlapped = true
  · simp only [hn, if_true]
    exact register_state
  simp only [hn]
  by_cases hbl : f.blocking = true
  · simp only [hbl, if_true]
    cases o.result with
    | failed => rfl
    | done => exact register_state
    | pending =>
      cases o.wait with
      | false => rfl
      | true => exact register_state
  simp only [hbl]
  cases o.result with
  | failed => rfl
  | done | pending =>
    cases f.emulateIocp with
    | false => exact register_state
    | true =>
      cases o.register with
      | false => rfl
      | true => exact register_state

/-- **The pipe** is what `PipeWrite` says. -/
theorem uvPipeWriteData_state (f : Flags) (r : R) (bufs : List ℕ) (cb copyAlways : Bool) (o : Outcome) (s : State R) :
    (uvPipeWriteData f r bufs cb copyAlways o s).map (fun p => p.1.s) = s.writeData f r bufs cb copyAlways o := by
  have hl := writeLen_eq_coalesced bufs copyAlways o
  unfold uvPipeWriteData
  extract_lets c₀ c₁
  have hs : c₁.s = s := by
    simp only [c₁, c₀]
    split <;> rfl
  unfold coalesce
  by_cases hc : coalesced bufs copyAlways = true
  · simp only [hc, if_true] at hl ⊢
    by_cases hlt : uintMax - 1 < bytes bufs
    · simp only [hlt, if_true] at hl ⊢
      rw [State.writeData, hl, Option.map_some, hs]
    · simp only [hlt, if_false] at hl ⊢
      cases ha : o.alloc with
      | false =>
        rw [ha] at hl
        rw [State.writeData, ha, hl]
        exact congrArg some hs
      | true =>
        rw [ha] at hl
        exact (submit_state (c := c₁.malloc) (by rw [ha, hl]; rfl)).trans (by rw [← hs]; rfl)
  · simp only [hc] at hl ⊢
    exact (submit_state hl).trans (by rw [hs])

/-! ## Failures -/

structure Begun (f : Flags) (bufs : List ℕ) (copyAlways : Bool) (s : State R) (c : Call R) : Prop where
  state : c.s = s
  events : c.events = if f.emulateIocp || f.blocking then 1 else 0
  closes : c.closes = 0
  blocks : c.blocks = if coalesced bufs copyAlways then 1 else 0
  frees : c.frees = 0
  outstanding : c.outstanding = 0

/-- Where the call fails, and what it does there. -/
inductive Fails (f : Flags) (r : R) (len : ℕ) (o : Outcome) (c : Call R) : Call R → Prop
  | nonOverlapped (hb : f.blocking = true) (hn : f.nonOverlapped = true) (hr : o.result ≠ .done) : Fails f r len o c c
  | blocking (hb : f.blocking = true) (hn : f.nonOverlapped = false) (hr : o.result = .failed) : Fails f r len o c c.closeEvent
  | wait (hb : f.blocking = true) (hn : f.nonOverlapped = false) (hr : o.result = .pending) :
      Fails f r len o c (c.withState (c.s.queued r len)).start.closeEvent
  | overlapped (hb : f.blocking = false) (hn : f.nonOverlapped = false) (hr : o.result = .failed) : Fails f r len o c c
  | register (hb : f.blocking = false) (hn : f.nonOverlapped = false) (he : f.emulateIocp = true) (hr : o.result = .done) :
      Fails f r len o c (c.withState (c.s.completed r))
  | registerPending (hb : f.blocking = false) (hn : f.nonOverlapped = false) (he : f.emulateIocp = true)
      (hr : o.result = .pending) : Fails f r len o c (c.withState (c.s.queued r len)).start

theorem register_ok {c' : Call R} : c.register r cb ≠ some (c', some e) := by
  intro h
  obtain ⟨s, -, h⟩ := Option.map_eq_some_iff.1 h
  cases h

theorem submit_fails {len : ℕ} {c' : Call R} (h : submit f r len cb o c = some (c', some e)) : Fails f r len o c c' := by
  unfold submit at h
  by_cases hb : f.blocking = true <;> by_cases hn : f.nonOverlapped = true
  · simp only [hb, hn, Bool.and_self, if_true] at h
    split at h
    · obtain ⟨s, -, h⟩ := Option.map_eq_some_iff.1 h
      cases h
    · rename_i hr
      cases h
      exact .nonOverlapped hb hn hr
  · rw [Bool.not_eq_true] at hn
    simp only [hb, hn, Bool.and_false, if_true] at h
    cases hr : o.result with
    | failed =>
      rw [hr] at h
      cases h
      exact .blocking hb hn hr
    | done =>
      rw [hr] at h
      exact absurd h register_ok
    | pending =>
      rw [hr] at h
      cases hw : o.wait with
      | true =>
        rw [hw] at h
        exact absurd h register_ok
      | false =>
        rw [hw] at h
        cases h
        exact .wait hb hn hr
  · simp only [hb, hn, Bool.false_and, if_true] at h
    exact absurd h register_ok
  · rw [Bool.not_eq_true] at hb hn
    simp only [hb, hn, Bool.and_false] at h
    cases hr : o.result with
    | failed =>
      rw [hr] at h
      cases h
      exact .overlapped hb hn hr
    | done =>
      rw [hr] at h
      cases he : f.emulateIocp with
      | false =>
        rw [he] at h
        exact absurd h register_ok
      | true =>
        cases hg : o.register with
        | true =>
          rw [he, hg] at h
          exact absurd h register_ok
        | false =>
          rw [he, hg] at h
          cases h
          exact .register hb hn he hr
    | pending =>
      rw [hr] at h
      cases he : f.emulateIocp with
      | false =>
        rw [he] at h
        exact absurd h register_ok
      | true =>
        cases hg : o.register with
        | true =>
          rw [he, hg] at h
          exact absurd h register_ok
        | false =>
          rw [he, hg] at h
          cases h
          exact .registerPending hb hn he hr

theorem uvPipeWriteData_fails (h : uvPipeWriteData f r bufs cb copyAlways o s = some (c, some e)) :
    (coalesced bufs copyAlways = true ∧ (uintMax - 1 < bytes bufs ∨ o.alloc = false) ∧ Begun f [] false s c) ∨
    ¬ (coalesced bufs copyAlways = true ∧ (uintMax - 1 < bytes bufs ∨ o.alloc = false)) ∧
      ∃ c₀, Begun f bufs copyAlways s c₀ ∧ Fails f r (bytes bufs) o c₀ c := by
  unfold uvPipeWriteData at h
  extract_lets c₀ c₁ at h
  have hbegun : Begun f [] false s c₁ := by
    simp only [c₁, c₀]
    split
    · rename_i he
      exact ⟨rfl, (if_pos he).symm, rfl, rfl, rfl, rfl⟩
    · rename_i he
      exact ⟨rfl, (if_neg he).symm, rfl, rfl, rfl, rfl⟩
  unfold coalesce at h
  by_cases hc : coalesced bufs copyAlways = true
  · split_ifs at h with hlt ha
    · exact .inl ⟨hc, .inl hlt, (Prod.mk.inj (Option.some.inj h)).1 ▸ hbegun⟩
    · refine .inr ⟨fun hn => hn.2.elim hlt (by simp [ha]), c₁.malloc, ?_, submit_fails h⟩
      obtain ⟨h1, h2, h3, h4, h5, h6⟩ := hbegun
      exact ⟨h1, h2, h3, by rw [if_pos hc, Call.malloc, h4]; rfl, h5, h6⟩
    · exact .inl ⟨hc, .inr (by simpa using ha), (Prod.mk.inj (Option.some.inj h)).1 ▸ hbegun⟩
  · simp only [hc] at h
    obtain ⟨h1, h2, h3, h4, h5, h6⟩ := hbegun
    exact .inr ⟨fun hn => hc hn.1, c₁, ⟨h1, h2, h3, by rw [if_neg hc, h4]; rfl, h5, h6⟩, submit_fails h⟩

omit [DecidableEq R] in
theorem clean_of_state (hs : c.s = s) : Clean s c ↔ c.closes = c.events ∧ c.frees = c.blocks ∧ c.outstanding = 0 := by
  subst hs
  exact ⟨fun h => ⟨h.event, h.block, h.outstanding⟩, fun h => ⟨rfl, rfl, rfl, rfl, rfl, h.1, h.2.1, h.2.2⟩⟩

theorem Fails.clean_iff {c₀ : Call R} {len : ℕ} (hf : Fails f r len o c₀ c) (hb : Begun f bufs copyAlways s c₀) :
    Clean s c ↔ coalesced bufs copyAlways = false ∧ o.result = .failed ∧ f.nonOverlapped = false ∧
      (f.blocking = true ∨ f.emulateIocp = false) := by
  obtain ⟨h1, h2, h3, h4, h5, h6⟩ := hb
  have hblock : c₀.frees = c₀.blocks ↔ coalesced bufs copyAlways = false := by
    rw [h4, h5]
    cases coalesced bufs copyAlways <;> simp
  cases hf with
  | nonOverlapped hb hn hr =>
    -- the event is not closed here
    refine iff_of_false (fun h => ?_) (fun h => by simp [hn] at h)
    have := h.event
    rw [h2, h3, hb] at this
    simp at this
  | blocking hb hn hr =>
    rw [clean_of_state (c := c₀.closeEvent) h1]
    simp [Call.closeEvent, h2, h3, h6, hb, hn, hr, hblock]
  | wait hb hn hr =>
    refine iff_of_false (fun h => ?_) (fun h => by simp [hr] at h)
    have := h.outstanding
    simp [Call.closeEvent, Call.start] at this
  | overlapped hb hn hr =>
    rw [clean_of_state h1, h2, h3, h6, hblock]
    simp only [hb, hn, hr, Bool.or_false, Bool.false_eq_true, false_or, and_true, true_and]
    cases f.emulateIocp <;> simp
  | register hb hn he hr =>
    refine iff_of_false (fun h => ?_) (fun h => by simp [hr] at h)
    have := h.event
    simp only [Call.withState] at this
    rw [h2, h3, he] at this
    simp at this
  | registerPending hb hn he hr =>
    refine iff_of_false (fun h => ?_) (fun h => by simp [hr] at h)
    have := h.outstanding
    simp [Call.start] at this

/-- **A failure leaves nothing behind** if and only if putting the buffers together has failed on a pipe without an event; or
nothing was put together, and `WriteFile` has failed at once on an overlapped pipe, and the event is closed there or
there is none. -/
theorem failure_iff (h : uvPipeWriteData f r bufs cb copyAlways o s = some (c, some e)) : Clean s c ↔
    (coalesced bufs copyAlways = true ∧ (uintMax - 1 < bytes bufs ∨ o.alloc = false) ∧
      f.emulateIocp = false ∧ f.blocking = false) ∨
    (coalesced bufs copyAlways = false ∧ o.result = .failed ∧ f.nonOverlapped = false ∧
      (f.blocking = true ∨ f.emulateIocp = false)) := by
  obtain ⟨hc, ha, hb⟩ | ⟨hnot, c₀, hb, hf⟩ := uvPipeWriteData_fails h
  · rw [clean_of_state hb.state, hb.events, hb.closes, hb.blocks, hb.frees, hb.outstanding]
    simp only [hc, ha, true_and, Bool.true_eq_false, false_and, or_false]
    cases f.emulateIocp <;> cases f.blocking <;> simp [coalesced]
  · rw [hf.clean_iff hb]
    exact ⟨.inr, fun h => h.resolve_left fun h => hnot ⟨h.1, h.2.1⟩⟩

def idle : State Unit where
  queue := []
  agents := []
  port := []
  silent := []
  queuedBytes _ := 0
  hasCb _ := false
  writeQueueSize := 0
  reqsPending := 0
  writeReqsPending := 0
  activecnt := 0
  activeReqs := 0
  pc := none
  accepted _ := 0
  packets _ := 0
  processed _ := 0
  wanted _ := 0
  calls _ := 0

/-- The event of a blocking write to an overlapped pipe is closed. -/
theorem failure_iff_one : ∃ c, uvPipeWriteData ⟨false, true, false⟩ () [3] true false ⟨true, .failed, true, true⟩ idle =
    some (c, some .writeFile) ∧ c.events = 1 ∧ Clean idle c := by
  have h : uvPipeWriteData ⟨false, true, false⟩ () [3] true false ⟨true, .failed, true, true⟩ idle =
    some (_, some .writeFile) := rfl
  exact ⟨_, h, rfl, (failure_iff h).2 (.inr ⟨rfl, rfl, rfl, .inl rfl⟩)⟩

/-- `WriteFile` fails on a blocking pipe that is not overlapped, and the event stays open; it fails with two buffers, and their
copy is not freed; the wait fails, and the operation goes on and is counted. -/
theorem failure_leaks :
    (∃ c, uvPipeWriteData ⟨true, true, false⟩ () [3] true false ⟨true, .failed, true, true⟩ idle = some (c, some .writeFile) ∧
      c.events = 1 ∧ c.closes = 0 ∧ ¬ Clean idle c) ∧
    (∃ c, uvPipeWriteData ⟨false, false, false⟩ () [3, 4] true false ⟨true, .failed, true, true⟩ idle =
      some (c, some .writeFile) ∧ c.blocks = 1 ∧ c.frees = 0 ∧ ¬ Clean idle c) ∧
    ∃ c, uvPipeWriteData ⟨false, true, false⟩ () [3] true false ⟨true, .pending, false, true⟩ idle = some (c, some .wait) ∧
      c.outstanding = 1 ∧ c.s.writeQueueSize = 3 ∧ ¬ Clean idle c :=
  ⟨⟨_, rfl, rfl, rfl, fun h => absurd h.event (by decide)⟩, ⟨_, rfl, rfl, rfl, fun h => absurd h.block (by decide)⟩,
    ⟨_, rfl, rfl, rfl, fun h => absurd h.outstanding (by decide)⟩⟩

end Libuv.L5.PipeWriteFail
