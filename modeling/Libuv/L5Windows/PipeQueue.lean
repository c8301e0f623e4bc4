import Libuv.Core.Circular
import Libuv.L5Windows.PipeWrite

/-!
# The writes of a pipe that is not overlapped, on Windows (`win/pipe.c`, `win/stream.c`)

Without overlapped operations a worker thread does the writes, one after the other: requests wait in a circular list
that `non_overlapped_writes_tail` points into, and the next one is given to a worker by `uv__pipe_write_data`, if
`write_reqs_pending` is 0, or by `uv__process_pipe_write_req` behind the callback. `uv_shutdown` is put off by
`uv__pipe_endgame` until `write_reqs_pending` is 0.

`work` holds the requests given to the thread pool, `executing` those a worker is in `WriteFile` with, `posted` those with
a completion packet. `waiting`, `submitted`, `started` and `completed` say what has happened: which requests are in the list and not
taken out of it, for which the call returned 0, `WriteFile` was called, and the callback has returned. A read of a null pointer and
a failed assertion are `none`. The pipe is not closed; what else goes on with it changes three counters.

* `writes_in_order`: the results.
-/
namespace Libuv.L5.PipeQueue

open List Option
open PipeWrite (uintMax intMax sizeMax bytes writeLen)

/-! ## State -/

structure State (R : Type*) where
  next : R → Option R
  tail : Option R
  work : List R
  executing : List R
  posted : List R
  /-- the request whose callback is running -/
  pc : Option R
  queuedBytes : R → ℕ
  writeQueueSize : ℕ
  writeReqsPending : ℕ
  reqsPending : ℕ
  activecnt : ℕ
  activeReqs : ℕ
  writable : Bool
  shutting : Bool
  shutdownReq : Bool
  endgameQueued : Bool
  waiting : List R
  submitted : List R
  started : List R
  completed : List R
  /-- what others have added to `activecnt` -/
  others : ℕ

variable {R : Type*} [DecidableEq R]

namespace State
variable (s : State R)

/-! ## Operations -/

/-- `uv__insert_non_overlapped_write_req`
mirrors win/pipe.c:1401-1413 -/
def insert (r : R) : State R :=
  let next := Function.update s.next r none
  match s.tail with
  | some t =>
    let next := Function.update next r (next t)
    { s with next := Function.update next t (some r), tail := some r, waiting := s.waiting ++ [r] }
  | none => { s with next := Function.update next r (some r), tail := some r, waiting := s.waiting ++ [r] }

/-- `uv_remove_non_overlapped_write_req`, and the request.
mirrors win/pipe.c:1416-1434 -/
def remove : Option (State R × Option R) :=
  match s.tail with
  | none => some (s, none)
  | some t =>
    match s.next t with
    | none => none
    | some r =>
      let s := { s with waiting := s.waiting.erase r }
      if r = t then some ({ s with tail := none }, some r)
      else some ({ s with next := Function.update s.next t (s.next r) }, some r)

/-- mirrors win/pipe.c:1437-1446 -/
def queueNonOverlappedWrite : Option (State R) :=
  s.remove.map fun p =>
    match p.2 with
    | some r => { p.1 with work := p.1.work ++ [r] }
    | none => p.1

/-- `INCREASE_ACTIVE_COUNT`
mirrors win/handle-inl.h:42-48 -/
def increaseActive : Option (State R) := if s.activecnt + 1 < intMax then some { s with activecnt := s.activecnt + 1 } else none

/-- The request is put into the list, and taken out again if it is the only write; then it is registered and counted.
mirrors win/pipe.c:1576-1585, 1651-1657 -/
def submit (r : R) (len : ℕ) : Option (State R) := do
  let s := s.insert r
  let s ← (if s.writeReqsPending = 0 then s.queueNonOverlappedWrite else some s)
  let s := { s with queuedBytes := Function.update s.queuedBytes r len, writeQueueSize := (s.writeQueueSize + len) % sizeMax }
  let s ← s.increaseActive
  return { s with
    activeReqs := (s.activeReqs + 1) % uintMax
    reqsPending := (s.reqsPending + 1) % uintMax
    writeReqsPending := (s.writeReqsPending + 1) % uintMax
    submitted := s.submitted ++ [r] }

/-- `uv_write`; `r` is the request that is queued, the copy if the buffers were put together.
mirrors win/stream.c:112-141, pipe.c:1541-1553 -/
def write (r : R) (bufs : List ℕ) (copyAlways alloc : Bool) : Option (State R) :=
  if s.writable then
    match writeLen bufs copyAlways alloc with
    | none => some s
    | some len => s.submit r len
  else some s

/-- `uv_pipe_writefile_thread_proc`, up to the end of `WriteFile`.
mirrors win/pipe.c:1245-1260 -/
def start (r : R) : State R :=
  { s with work := s.work.erase r, executing := s.executing ++ [r], started := s.started ++ [r] }

/-- mirrors win/pipe.c:1262-1268 -/
def post (r : R) : State R := { s with executing := s.executing.erase r, posted := s.posted ++ [r] }

/-- `uv__process_pipe_write_req` up to the callback.
mirrors win/pipe.c:2052-2087 -/
def processWriteReq (r : R) : Option (State R) :=
  if s.queuedBytes r ≤ s.writeQueueSize ∧ 0 < s.activecnt ∧ 0 < s.activeReqs then
    some { s with
      posted := s.posted.erase r
      writeQueueSize := s.writeQueueSize - s.queuedBytes r
      activecnt := s.activecnt - 1
      activeReqs := s.activeReqs - 1
      pc := some r }
  else none

/-- `write_reqs_pending--` behind the callback. -/
def returned : State R :=
  { s with writeReqsPending := (s.writeReqsPending + (uintMax - 1)) % uintMax, completed := s.completed ++ s.pc.toList, pc := none }

/-- The next write; the assertion is the one the callers rely on.
mirrors win/pipe.c:2091-2095 -/
def startNext : Option (State R) :=
  if s.tail ≠ none then
    if 0 < s.writeReqsPending then s.queueNonOverlappedWrite else none
  else some s

/-- mirrors win/pipe.c:2089-2103 -/
def afterCallback : Option (State R) :=
  s.returned.startNext.bind fun s =>
    let s := if s.shutdownReq && s.writeReqsPending == 0 then { s with endgameQueued := true } else s
    if 0 < s.reqsPending then some { s with reqsPending := s.reqsPending - 1 } else none

/-- mirrors win/stream.c:201-223 -/
def shutdown : Option (State R) :=
  if !s.writable || s.shutting then some s
  else
    s.increaseActive.map fun s =>
      { s with
        writable := false
        shutting := true
        shutdownReq := true
        reqsPending := (s.reqsPending + 1) % uintMax
        activeReqs := (s.activeReqs + 1) % uintMax
        others := s.others + 1
        endgameQueued := true }

def startsShutdown : Bool := s.shutdownReq && s.writeReqsPending == 0

/-- `uv__pipe_endgame`; unless it fails, the request is now pending or a worker has it.
mirrors win/handle-inl.h:101-114, pipe.c:581-657 -/
def endgame (failed : Bool) : Option (State R) :=
  let s := { s with endgameQueued := false }
  if s.startsShutdown then
    let s := { s with shutdownReq := false }
    if failed then
      if 0 < s.activecnt ∧ 0 < s.activeReqs ∧ 0 < s.reqsPending then
        some { s with
          activecnt := s.activecnt - 1
          others := s.others - 1
          activeReqs := s.activeReqs - 1
          writable := true
          reqsPending := s.reqsPending - 1 }
      else none
    else some s
  else some s

def flight : List R := s.waiting ++ s.work ++ s.executing ++ s.posted

end State

/-! ## The system -/

inductive Label (R : Type*)
  | write (r : R) (bufs : List ℕ) (copyAlways alloc : Bool)
  | start (r : R)
  | post (r : R)
  /-- the ring of pending requests uses the pointer of a request with a packet -/
  | link (r : R) (v : Option R)
  | process (r : R)
  | ret
  | shutdown
  | endgame (failed : Bool)
  /-- something else that goes on with the pipe -/
  | other (activecnt others reqsPending activeReqs : ℕ)

/-- A request is used for one write at a time; others take away from `activecnt` what they have added. -/
def enabled (s : State R) : Label R → Prop
  | .write r _ _ _ => r ∉ s.flight
  | .start r => r ∈ s.work
  | .post r => r ∈ s.executing
  | .link r _ => r ∈ s.posted
  | .process r => s.pc = none ∧ r ∈ s.posted
  | .ret => s.pc ≠ none
  | .shutdown => True
  | .endgame _ => s.pc = none ∧ s.endgameQueued = true
  | .other a o _ _ => a + s.others = s.activecnt + o ∧ a < intMax ∧ (s.shutdownReq = true → 0 < o)

instance (s : State R) : (l : Label R) → Decidable (enabled s l)
  | .write r _ _ _ => inferInstanceAs (Decidable (r ∉ s.flight))
  | .start r => inferInstanceAs (Decidable (r ∈ s.work))
  | .post r => inferInstanceAs (Decidable (r ∈ s.executing))
  | .link r _ => inferInstanceAs (Decidable (r ∈ s.posted))
  | .process r => inferInstanceAs (Decidable (s.pc = none ∧ r ∈ s.posted))
  | .ret => inferInstanceAs (Decidable (s.pc ≠ none))
  | .shutdown => .isTrue trivial
  | .endgame _ => inferInstanceAs (Decidable (s.pc = none ∧ s.endgameQueued = true))
  | .other a o _ _ => inferInstanceAs (Decidable (a + s.others = s.activecnt + o ∧ a < intMax ∧ (s.shutdownReq = true → 0 < o)))

def step (s : State R) : Label R → Option (State R)
  | .write r bufs copyAlways alloc => s.write r bufs copyAlways alloc
  | .start r => some (s.start r)
  | .post r => some (s.post r)
  | .link r v => some { s with next := Function.update s.next r v }
  | .process r => s.processWriteReq r
  | .ret => s.afterCallback
  | .shutdown => s.shutdown
  | .endgame failed => s.endgame failed
  | .other a o p q => some { s with activecnt := a, others := o, reqsPending := p, activeReqs := q }

/-- A pipe that is connected and has no writes yet. -/
structure Initial (s : State R) : Prop where
  tail : s.tail = none
  lists : s.waiting = [] ∧ s.work = [] ∧ s.executing = [] ∧ s.posted = []
  pc : s.pc = none
  writeReqsPending : s.writeReqsPending = 0
  active : s.activecnt = s.others ∧ s.activecnt < intMax
  shutdownReq : s.shutdownReq = false
  logs : s.submitted = [] ∧ s.started = [] ∧ s.completed = []

def system (R : Type*) [DecidableEq R] : LTS (State R) (Label R) where
  init := Initial
  step s l t := enabled s l ∧ step s l = some t

/-! ## The invariant -/

variable {s t : State R} {r : R}

def State.inService (s : State R) : List R := s.pc.toList ++ s.posted ++ s.executing ++ s.work

structure Inv (s : State R) : Prop where
  circle : Circle s.next s.tail s.waiting
  nodup : s.flight.Nodup
  counted : s.writeReqsPending = s.waiting.length + s.inService.length
  alone : s.inService.length ≤ 1
  running : s.waiting ≠ [] → s.inService ≠ []
  active : s.activecnt = s.flight.length + s.others
  small : s.activecnt < intMax
  order : s.submitted = s.started ++ (s.work ++ s.waiting)
  done : s.started = s.completed ++ (s.pc.toList ++ s.posted ++ s.executing)
  shutdown : s.shutdownReq = true → s.writable = false ∧ 0 < s.others

omit [DecidableEq R] in
theorem Initial.inv (h : Initial s) : Inv s := by
  obtain ⟨h1, ⟨h2, h3, h4, h5⟩, h6, h7, ⟨h8, h9⟩, h10, h11, h12, h13⟩ := h
  have hfl : s.flight = [] := by simp [State.flight, h2, h3, h4, h5]
  have hsv : s.inService = [] := by simp [State.inService, h3, h4, h5, h6]
  refine ⟨?_, ?_, ?_, ?_, ?_, ?_, h9, ?_, ?_, ?_⟩
  · rw [h1, h2]
    exact Circle.nil
  · rw [hfl]
    exact nodup_nil
  · rw [h7, h2, hsv]
    rfl
  · rw [hsv]
    exact Nat.zero_le 1
  · exact fun h => absurd h2 h
  · rw [hfl, h8]
    exact (Nat.zero_add _).symm
  · simp [h11, h12, h2, h3]
  · simp [h12, h13, h4, h5, h6]
  · simp [h10]

/-! ### The list -/

theorem insert_spec (hc : Circle s.next s.tail s.waiting) (hd : s.waiting.Nodup) (hr : r ∉ s.waiting) :
    ∃ next tail, s.insert r = { s with next := next, tail := tail, waiting := s.waiting ++ [r] } ∧
      Circle next tail (s.waiting ++ [r]) := by
  unfold State.insert
  cases ht : s.tail with
  | none =>
    rw [ht] at hc
    have hw := getLast?_eq_none_iff.1 hc.1.symm
    refine ⟨_, _, rfl, ?_⟩
    rw [hw]
    exact Circle.insert_nil _ r
  | some q =>
    rw [ht] at hc
    have hq : q ≠ r := fun e => hr (e ▸ mem_of_getLast? hc.1.symm)
    refine ⟨_, _, rfl, ?_⟩
    rw [Function.update_idem, Function.update_of_ne hq]
    exact hc.insert hd hr

theorem remove_spec (hc : Circle s.next s.tail s.waiting) (hd : s.waiting.Nodup) {l : List R} (hw : s.waiting = r :: l) :
    ∃ next tail, s.remove = some ({ s with next := next, tail := tail, waiting := l }, some r) ∧ Circle next tail l := by
  obtain ⟨q, hq⟩ : ∃ q, s.tail = some q := by
    rw [hc.1, hw]
    exact ⟨_, getLast?_cons⟩
  rw [hq] at hc
  obtain ⟨a, k, hk, hnext, hlast, hmore⟩ := hc.remove hd
  obtain ⟨rfl, rfl⟩ := List.cons.inj (hw.symm.trans hk)
  have herase : s.waiting.erase r = l := by rw [hw, erase_cons_head]
  simp only [State.remove, hq, hnext, herase]
  by_cases hr : r = q
  · rw [if_pos hr]
    exact ⟨_, _, rfl, hlast hr ▸ Circle.nil⟩
  · rw [if_neg hr]
    exact ⟨_, _, rfl, hmore hr⟩

theorem queue_spec (hc : Circle s.next s.tail s.waiting) (hd : s.waiting.Nodup) {l : List R} (hw : s.waiting = r :: l) :
    ∃ next tail, s.queueNonOverlappedWrite =
      some { s with next := next, tail := tail, work := s.work ++ [r], waiting := l } ∧ Circle next tail l := by
  obtain ⟨next, tail, h, hc'⟩ := remove_spec hc hd hw
  exact ⟨next, tail, by rw [State.queueNonOverlappedWrite, h]; rfl, hc'⟩

/-! ### Writes -/

omit [DecidableEq R] in
theorem flight_perm (s : State R) : s.flight.Perm (s.work ++ s.waiting ++ (s.executing ++ s.posted)) := by
  rw [State.flight, append_assoc]
  exact perm_append_comm.append_right _

omit [DecidableEq R] in
theorem Inv.nodup_waiting (h : Inv s) : s.waiting.Nodup := by
  have := h.nodup
  rw [State.flight, append_assoc, append_assoc] at this
  exact this.of_append_left

theorem place_spec (h : Inv s) (hr : r ∉ s.flight) : ∃ next tail work waiting,
    (if (s.insert r).writeReqsPending = 0 then (s.insert r).queueNonOverlappedWrite else some (s.insert r)) =
      some { s with next := next, tail := tail, work := work, waiting := waiting } ∧
    Circle next tail waiting ∧ work ++ waiting = s.work ++ s.waiting ++ [r] ∧
    (s.pc.toList ++ s.posted ++ s.executing ++ work).length = 1 := by
  have hd := h.nodup_waiting
  have hw : r ∉ s.waiting := fun hm => hr (by simp [State.flight, hm])
  obtain ⟨next, tail, hins, hc⟩ := insert_spec h.circle hd hw
  have hcount := h.counted
  have halone := h.alone
  rw [hins]
  by_cases h0 : s.writeReqsPending = 0
  · rw [if_pos h0]
    have hnil : s.waiting = [] := length_eq_zero_iff.1 (by omega)
    have hserv : s.inService = [] := length_eq_zero_iff.1 (by omega)
    have hwork : s.work = [] := (append_eq_nil_iff.1 hserv).2
    rw [hnil] at hc ⊢
    obtain ⟨next', tail', hq, hc'⟩ := queue_spec (s := { s with next := next, tail := tail, waiting := [r] }) hc
      (nodup_singleton r) rfl
    refine ⟨next', tail', s.work ++ [r], [], hq, hc', by simp [hwork], ?_⟩
    rw [← append_assoc]
    have hlen := congrArg List.length hserv
    rw [State.inService] at hlen
    rw [length_append, hlen]
    rfl
  · rw [if_neg h0]
    refine ⟨next, tail, s.work, s.waiting ++ [r], rfl, hc, by rw [append_assoc], ?_⟩
    have hpos : s.inService ≠ [] := by
      intro hs
      refine h.running (fun hn => ?_) hs
      rw [hn, hs] at hcount
      exact h0 hcount
    have := length_pos_iff.2 hpos
    exact Nat.le_antisymm halone this

/-- **A write** is registered, and in its place. -/
theorem submit_inv (h : Inv s) (hr : r ∉ s.flight) (len : ℕ) :
    (s.activecnt + 1 < intMax → s.submit r len ≠ none) ∧ ∀ t, s.submit r len = some t → Inv t := by
  obtain ⟨next, tail, work, waiting, hplace, hc, hlists, hone⟩ := place_spec h hr
  unfold State.submit
  simp only [hplace, bind_eq_bind, bind_some, State.increaseActive]
  split_ifs with hlt
  · refine ⟨fun _ => some_ne_none _, fun t ht => ?_⟩
    obtain rfl := some.inj ht
    have hlen : s.flight.length = s.waiting.length + s.work.length + s.executing.length + s.posted.length := by
      simp only [State.flight, length_append]
    have hsum := congrArg List.length hlists
    have hserv := hone
    have hwr := h.counted
    have hact := h.active
    simp only [length_append, length_singleton, State.inService] at hsum hserv hwr
    have hintMax : intMax < uintMax := by decide
    refine ⟨hc, ?_, ?_, hone.le, fun _ hn => ?_, ?_, hlt, ?_, h.done, h.shutdown⟩
    · have hp : (waiting ++ work ++ s.executing ++ s.posted).Perm (s.flight ++ [r]) := by
        have h1 : (waiting ++ work ++ s.executing ++ s.posted).Perm (work ++ waiting ++ (s.executing ++ s.posted)) := by
          rw [append_assoc]
          exact perm_append_comm.append_right _
        rw [hlists] at h1
        refine h1.trans (List.Perm.trans ?_ ((flight_perm s).symm.append_right [r]))
        rw [append_assoc, append_assoc _ _ [r]]
        exact perm_append_comm.append_left _
      exact hp.nodup_iff.2 (nodup_append_comm.1 (nodup_cons.2 ⟨hr, h.nodup⟩))
    · simp only [State.inService, length_append]
      rw [Nat.mod_eq_of_lt (by omega)]
      omega
    · rw [State.inService] at hn
      rw [hn] at hone
      cases hone
    · simp only [State.flight, length_append]
      omega
    · simp only [hlists, h.order, append_assoc]
  · exact ⟨fun h => absurd h hlt, fun t ht => by cases ht⟩

/-! ### Requests in service -/

omit [DecidableEq R] in
theorem eq_singleton {l : List R} (hr : r ∈ l) (hl : l.length ≤ 1) : l = [r] := by
  obtain ⟨a, rfl⟩ := length_eq_one_iff.1 (Nat.le_antisymm hl (length_pos_of_mem hr))
  rw [mem_singleton.1 hr]

omit [DecidableEq R] in
theorem Inv.lengths (h : Inv s) : s.pc.toList.length + s.posted.length + s.executing.length + s.work.length ≤ 1 := by
  have := h.alone
  simpa only [State.inService, length_append] using this

theorem Inv.start (h : Inv s) (hr : r ∈ s.work) : Inv (s.start r) := by
  have hlen := h.lengths
  have hpos := length_pos_of_mem hr
  have hw := eq_singleton hr (by omega)
  have he : s.executing = [] := length_eq_zero_iff.1 (by omega)
  obtain ⟨hc, hd, hn, ha, hrun, hact, hsm, ho, hdone, hs⟩ := h
  simp only [State.flight, State.inService, hw, he] at hd hn ha hrun hact
  refine ⟨hc, ?_, ?_, ?_, ?_, ?_, hsm, ?_, ?_, hs⟩ <;>
    simp only [State.flight, State.inService, State.start, hw, he, erase_cons_head]
  · simpa using hd
  · simpa using hn
  · simpa using ha
  · simp
  · simpa using hact
  · simp [ho, hw]
  · simp [hdone, he]

theorem Inv.post (h : Inv s) (hr : r ∈ s.executing) : Inv (s.post r) := by
  have hlen := h.lengths
  have hpos := length_pos_of_mem hr
  have he := eq_singleton hr (by omega)
  have hp : s.posted = [] := length_eq_zero_iff.1 (by omega)
  obtain ⟨hc, hd, hn, ha, hrun, hact, hsm, ho, hdone, hs⟩ := h
  simp only [State.flight, State.inService, hp, he] at hd hn ha hrun hact
  refine ⟨hc, ?_, ?_, ?_, ?_, ?_, hsm, ho, ?_, hs⟩ <;>
    simp only [State.flight, State.inService, State.post, hp, he, erase_cons_head]
  · simpa using hd
  · simpa using hn
  · simpa using ha
  · simp
  · simpa using hact
  · simp [hdone, he, hp]

theorem Inv.process (h : Inv s) (hr : r ∈ s.posted) (ht : s.processWriteReq r = some t) : Inv t := by
  have hlen := h.lengths
  have hpos := length_pos_of_mem hr
  have hp := eq_singleton hr (by omega)
  have hpc : s.pc.toList = [] := length_eq_zero_iff.1 (by omega)
  obtain ⟨hc, hd, hn, ha, hrun, hact, hsm, ho, hdone, hs⟩ := h
  simp only [State.flight, State.inService, hp, hpc] at hd hn ha hrun hact
  unfold State.processWriteReq at ht
  split_ifs at ht
  obtain rfl := some.inj ht
  refine ⟨hc, ?_, ?_, ?_, ?_, ?_, lt_of_le_of_lt (Nat.sub_le ..) hsm, ho, ?_, hs⟩ <;>
    simp only [State.flight, State.inService, hp, erase_cons_head]
  · rw [append_nil]
    exact hd.of_append_left
  · simpa using hn
  · simpa using ha
  · simp
  · simp only [length_append, length_singleton] at hact ⊢
    simp only [length_nil]
    omega
  · simp [hdone, hp, hpc]

theorem next_spec (h : Inv s) (hpc : s.pc = some r) : ∃ next tail work waiting,
    s.returned.startNext = some { s.returned with next := next, tail := tail, work := work, waiting := waiting } ∧
    Circle next tail waiting ∧ work ++ waiting = s.waiting ∧ work.length ≤ 1 ∧ (waiting ≠ [] → work ≠ []) ∧
    s.returned.writeReqsPending = s.waiting.length ∧ s.work = [] ∧ s.executing = [] ∧ s.posted = [] := by
  have hlen := h.lengths
  rw [hpc] at hlen
  simp only [toList_some, length_singleton] at hlen
  have hw : s.work = [] := length_eq_zero_iff.1 (by omega)
  have he : s.executing = [] := length_eq_zero_iff.1 (by omega)
  have hp : s.posted = [] := length_eq_zero_iff.1 (by omega)
  have hcount := h.counted
  have hsmall := h.small
  have hact := h.active
  simp only [State.inService, State.flight, hpc, hw, he, hp, append_nil, toList_some, length_singleton]
    at hcount hact
  have hmax : intMax < uintMax := by decide
  have hret : s.returned.writeReqsPending = s.waiting.length := by
    rw [State.returned, hcount]
    have : s.waiting.length + 1 + (uintMax - 1) = s.waiting.length + uintMax := by omega
    rw [this, Nat.add_mod_right, Nat.mod_eq_of_lt (by omega)]
  have hc := h.circle
  unfold State.startNext
  cases hwait : s.waiting with
  | nil =>
    have htail : s.returned.tail = none := hc.1.trans (by rw [hwait]; rfl)
    rw [hwait] at hc hret
    refine ⟨s.next, s.tail, [], [], ?_, hc, rfl, Nat.zero_le 1, fun h => absurd rfl h, hret, hw, he, hp⟩
    rw [if_neg (not_not_intro htail)]
    simp [State.returned, hw, hwait]
  | cons a l =>
    have htail : s.returned.tail ≠ none := by
      rw [show s.returned.tail = s.waiting.getLast? from hc.1, hwait]
      simp
    rw [if_pos htail, if_pos (by rw [hret, hwait]; exact Nat.succ_pos _)]
    obtain ⟨next, tail, hq, hc'⟩ := queue_spec (s := s.returned) hc h.nodup_waiting hwait
    rw [hwait] at hret
    refine ⟨next, tail, [a], l, ?_, hc', rfl, le_rfl, fun _ => cons_ne_nil a [], hret, hw, he, hp⟩
    rw [hq, show s.returned.work = [] from hw]
    rfl

theorem Inv.ret (h : Inv s) (hpc : s.pc ≠ none) (ht : s.afterCallback = some t) : Inv t := by
  obtain ⟨r, hr⟩ := ne_none_iff_exists'.1 hpc
  obtain ⟨next, tail, work, waiting, hn, hc, hlists, hone, hrun, hcount, hw, he, hp⟩ := next_spec h hr
  unfold State.afterCallback at ht
  rw [hn, bind_some] at ht
  have hd := h.nodup_waiting
  have hact := h.active
  have ho := h.order
  have hdone := h.done
  simp only [State.flight, hw, he, hp, append_nil, nil_append] at hact ho hdone
  suffices hi : ∀ e p, Inv { s.returned with
      next := next, tail := tail, work := work, waiting := waiting, endgameQueued := e, reqsPending := p } by
    dsimp only at ht
    split_ifs at ht
    · obtain rfl := some.inj ht
      exact hi true _
    · obtain rfl := some.inj ht
      exact hi s.endgameQueued _
  intro e p
  refine ⟨hc, ?_, ?_, ?_, ?_, ?_, h.small, ?_, ?_, h.shutdown⟩ <;>
    simp only [State.flight, State.inService, State.returned, he, hp, append_nil, toList_none, nil_append]
  · rw [← hlists] at hd
    exact nodup_append_comm.1 hd
  · rw [← hlists, length_append, Nat.add_comm] at hcount
    exact hcount
  · exact hone
  · exact hrun
  · rw [← hlists, length_append] at hact
    rw [length_append]
    omega
  · rw [hlists, ho]
  · rw [hdone]

/-! ### Shutdown -/

omit [DecidableEq R] in
theorem Inv.shut (h : Inv s) (ht : s.shutdown = some t) : Inv t := by
  unfold State.shutdown State.increaseActive at ht
  split_ifs at ht with hw hlt
  · exact some.inj ht ▸ h
  · obtain rfl := some.inj ht
    have hact := h.active
    exact ⟨h.circle, h.nodup, h.counted, h.alone, h.running, by simp only [State.flight] at hact ⊢; omega, hlt, h.order,
      h.done, fun _ => ⟨rfl, Nat.succ_pos _⟩⟩
  · cases ht

omit [DecidableEq R] in
theorem Inv.idle (h : Inv s) (h0 : s.writeReqsPending = 0) : s.flight = [] ∧ s.pc = none ∧ s.completed = s.submitted := by
  have hcount := h.counted
  have hw : s.waiting = [] := length_eq_zero_iff.1 (by omega)
  have hs : s.inService = [] := length_eq_zero_iff.1 (by omega)
  simp only [State.inService, append_eq_nil_iff] at hs
  obtain ⟨⟨⟨hpc, hp⟩, he⟩, hwork⟩ := hs
  refine ⟨by simp [State.flight, *], by simpa using hpc, ?_⟩
  rw [h.order, h.done, hpc, hp, he, hwork, hw]
  simp

omit [DecidableEq R] in
theorem Inv.endgame (h : Inv s) {failed : Bool} (ht : s.endgame failed = some t) : Inv t := by
  unfold State.endgame at ht
  dsimp only at ht
  have hact := h.active
  split_ifs at ht with hst hf hpos
  · obtain rfl := some.inj ht
    have hreq : s.shutdownReq = true := (Bool.and_eq_true _ _ ▸ hst).1
    have hoth := (h.shutdown hreq).2
    exact ⟨h.circle, h.nodup, h.counted, h.alone, h.running, by simp only [State.flight] at hact ⊢; omega,
      lt_of_le_of_lt (Nat.sub_le ..) h.small, h.order, h.done, fun hn => by cases hn⟩
  · obtain rfl := some.inj ht
    exact ⟨h.circle, h.nodup, h.counted, h.alone, h.running, hact, h.small, h.order, h.done, fun hn => by cases hn⟩
  · obtain rfl := some.inj ht
    exact ⟨h.circle, h.nodup, h.counted, h.alone, h.running, hact, h.small, h.order, h.done, h.shutdown⟩

/-! ### Every step -/

theorem Inv.link (h : Inv s) (hr : r ∈ s.posted) (v : Option R) : Inv { s with next := Function.update s.next r v } := by
  have hoff : r ∉ s.waiting := by
    intro hm
    have hd := h.nodup
    rw [State.flight, append_assoc, append_assoc] at hd
    exact (nodup_append.1 hd).2.2 r hm r (by simp [hr]) rfl
  refine ⟨⟨h.circle.1, fun a ha => (h.circle.2 a ha).congr fun b hb => ?_⟩, h.nodup, h.counted, h.alone, h.running,
    h.active, h.small, h.order, h.done, h.shutdown⟩
  exact Function.update_of_ne (ne_of_mem_of_not_mem hb hoff) ..

theorem inv_inductive : (system R).Inductive Inv where
  init _ h := h.inv
  step := by
    rintro s l t h ⟨he, ht⟩
    cases l with
    | write r bufs copyAlways alloc =>
      simp only [step, State.write] at ht
      split_ifs at ht
      · split at ht
        · exact some.inj ht ▸ h
        · exact (submit_inv h he _).2 t ht
      · exact some.inj ht ▸ h
    | start r => exact some.inj ht ▸ h.start he
    | post r => exact some.inj ht ▸ h.post he
    | link r v => exact some.inj ht ▸ h.link he v
    | process r => exact h.process he.2 ht
    | ret => exact h.ret he ht
    | shutdown => exact h.shut ht
    | endgame failed => exact h.endgame ht
    | other a o p q =>
      obtain rfl := some.inj ht
      obtain ⟨h1, h2, h3⟩ := he
      have hact := h.active
      exact ⟨h.circle, h.nodup, h.counted, h.alone, h.running, by simp only [State.flight] at hact ⊢; omega, h2, h.order,
        h.done, fun hs => ⟨(h.shutdown hs).1, h3 hs⟩⟩

/-- **The writes of a pipe that is not overlapped.** In every state of every run: at most one request is with a worker, so at
most one `WriteFile` is executing; `WriteFile` was called for the requests in the order of their submission, once for each, and
those in the list are next; if requests are waiting and no callback is running, one is with a worker or has a packet;
behind a callback the assertion holds, and a write finds the list as it should be; a shutdown that is waiting for the
writes starts when all of them have completed, and no more are accepted before. If no counter has wrapped, a packet begins the
callback of its request, and the end of the callback completes the request and gives the first one of the list to a worker. -/
theorem writes_in_order (h : (system R).Reachable s) :
    (s.work ++ s.executing).length ≤ 1 ∧ (∃ l, Circle s.next s.tail l ∧ s.submitted = s.started ++ (s.work ++ l)) ∧
    (∃ l, s.started = s.completed ++ l) ∧
    (s.tail ≠ none → s.pc = none → s.work ≠ [] ∨ s.executing ≠ [] ∨ s.posted ≠ []) ∧
    (s.pc ≠ none → s.returned.startNext ≠ none ∧ (s.tail ≠ none → 0 < s.returned.writeReqsPending)) ∧
    (∀ r bufs copyAlways alloc, r ∉ s.flight → s.activecnt + 1 < intMax → s.write r bufs copyAlways alloc ≠ none) ∧
    (s.startsShutdown = true → s.flight = [] ∧ s.pc = none ∧ s.completed = s.submitted) ∧
    (s.shutdownReq = true → s.writable = false) ∧
    (∀ r, s.queuedBytes r ≤ s.writeQueueSize ∧ 0 < s.activecnt ∧ 0 < s.activeReqs →
      ∃ t, step s (.process r) = some t ∧ t.pc = some r) ∧
    ∀ r, s.pc = some r → 0 < s.reqsPending → ∃ t l, step s .ret = some t ∧ t.pc = none ∧ t.completed = s.completed ++ [r] ∧
      t.writeReqsPending + 1 = s.writeReqsPending ∧ Circle s.next s.tail l ∧ t.work = l.take 1 ∧ Circle t.next t.tail l.tail := by
  have hi := inv_inductive.reachable h
  have hlen := hi.lengths
  refine ⟨by rw [length_append]; omega, ⟨s.waiting, hi.circle, hi.order⟩, ⟨_, hi.done⟩, fun ht hpc => ?_,
    fun hpc => ?_, fun r bufs copyAlways alloc hr hlt => ?_, fun hs => ?_, fun hs => (hi.shutdown hs).1,
    fun r hr => ⟨_, if_pos hr, rfl⟩, fun r hr hpos => ?_⟩
  · have hw : s.waiting ≠ [] := by
      intro hw
      rw [hi.circle.1, hw] at ht
      exact ht rfl
    have := hi.running hw
    simp only [State.inService, hpc, toList_none, nil_append, ne_eq, append_eq_nil_iff, not_and_or] at this
    tauto
  · obtain ⟨r, hr⟩ := ne_none_iff_exists'.1 hpc
    obtain ⟨next, tail, work, waiting, hn, -, -, -, -, hcount, -⟩ := next_spec hi hr
    refine ⟨by rw [hn]; exact some_ne_none _, fun ht => ?_⟩
    rw [hcount]
    refine length_pos_iff.2 fun hw => ht ?_
    rw [hi.circle.1, hw]
    rfl
  · unfold State.write
    split
    · split
      · exact some_ne_none _
      · exact (submit_inv hi hr _).1 hlt
    · exact some_ne_none _
  · have h0 : s.writeReqsPending = 0 := eq_of_beq (Bool.and_eq_true _ _ ▸ hs).2
    exact hi.idle h0
  · obtain ⟨next, tail, work, waiting, hn, hc, hlists, hone, hrun, hcount, -⟩ := next_spec hi hr
    have hpend : s.returned.writeReqsPending + 1 = s.writeReqsPending := by
      have hserv := hi.alone
      rw [hi.counted]
      simp only [State.inService, hr, toList_some, length_append, length_singleton] at hserv ⊢
      omega
    have hsplit : work = s.waiting.take 1 ∧ waiting = s.waiting.tail := by
      rw [← hlists]
      rcases work with - | ⟨a, _ | ⟨b, l⟩⟩
      · rw [not_ne_iff.1 fun hw => hrun hw rfl]
        exact ⟨rfl, rfl⟩
      · exact ⟨rfl, rfl⟩
      · simp at hone
    unfold step State.afterCallback
    rw [hn]
    refine ⟨_, s.waiting, if_pos ?_, ?_⟩
    · split_ifs <;> exact hpos
    split_ifs <;> exact ⟨rfl, by rw [State.returned, hr]; rfl, hpend, hi.circle, hsplit.1, hsplit.2 ▸ hc⟩

def idle : State Bool where
  next _ := none
  tail := none
  work := []
  executing := []
  posted := []
  pc := none
  queuedBytes _ := 0
  writeQueueSize := 0
  writeReqsPending := 0
  reqsPending := 0
  activecnt := 0
  activeReqs := 0
  writable := true
  shutting := false
  shutdownReq := false
  endgameQueued := false
  waiting := []
  submitted := []
  started := []
  completed := []
  others := 0

/-- Two writes: a worker has the first one, the other one waits, and is given to a worker behind the callback of the first. -/
theorem writes_in_order_two : ∃ s, (system Bool).Reachable s ∧ s.executing = [true] ∧ s.tail = some false ∧
    (∃ l, s.submitted = s.started ++ (s.work ++ l)) ∧ s.submitted = [true, false] ∧
    ∃ s' t, (system Bool).Reachable s' ∧ s'.pc = some true ∧ step s' .ret = some t ∧ t.completed = [true] ∧ t.work = [false] := by
  have hinit : (system Bool).init idle :=
    ⟨rfl, ⟨rfl, rfl, rfl, rfl⟩, rfl, rfl, ⟨rfl, by decide⟩, rfl, rfl, rfl, rfl⟩
  have h1 := (LTS.Reachable.init hinit).step (l := .write true [3] false true) ⟨by decide, rfl⟩
  have h2 := h1.step (l := .write false [4] false true) ⟨by decide, rfl⟩
  have h3 := h2.step (l := .start true) ⟨by decide, rfl⟩
  have h4 := h3.step (l := .post true) ⟨by decide, rfl⟩
  have h5 := h4.step (l := .process true) ⟨by decide, rfl⟩
  obtain ⟨-, ⟨l, -, hl⟩, -⟩ := writes_in_order h3
  obtain ⟨-, -, -, -, -, -, -, -, -, hret⟩ := writes_in_order h5
  obtain ⟨t, -, ht, -⟩ := hret true rfl (by decide)
  refine ⟨_, h3, rfl, rfl, ⟨l, hl⟩, rfl, _, t, h5, rfl, ht, ?_⟩
  cases ht
  exact ⟨rfl, rfl⟩

end Libuv.L5.PipeQueue
