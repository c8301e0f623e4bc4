import Mathlib.Tactic
import Libuv.Core.Fairness

/-!
# Poll handles on Windows (`win/poll.c`)

A handle watches for `events` by means of two requests, which are submitted in turn: a new one is
submitted when the events asked for are not all in those already submitted, and then masks what the other
reports. In fast mode a submission makes the kernel return the other request; in slow mode nothing can
be taken back. The kernel, or a thread that calls `select`, returns an outstanding request with any events or any
error. `outstanding` counts what is in their hands; a submission that failed at once counts too, as its
request is put among the pending ones with the error. `latest` remembers the last `uv_poll_start`. An
operation whose assertion fails is `none`.

* `poll_requests`: the results, in runs where steps are `Orderly`.
* `error_stays_active`, `slow_third`: what happens in others.
-/
namespace Libuv.L5.PollReqs

/-! ## State -/

abbrev Events := BitVec 8

def UV_READABLE : Events := 1#8
def UV_WRITABLE : Events := 2#8
def UV_DISCONNECT : Events := 4#8
def UV_PRIORITIZED : Events := 8#8

def AFD_POLL_RECEIVE : BitVec 32 := 0x1#32
def AFD_POLL_SEND : BitVec 32 := 0x4#32
def AFD_POLL_DISCONNECT : BitVec 32 := 0x8#32
def AFD_POLL_ABORT : BitVec 32 := 0x10#32
def AFD_POLL_LOCAL_CLOSE : BitVec 32 := 0x20#32
def AFD_POLL_ACCEPT : BitVec 32 := 0x80#32
def AFD_POLL_CONNECT_FAIL : BitVec 32 := 0x100#32

def WSAEINTR : ℕ := 10004

/-- Everything in the first set is in the second. -/
def Within (a b : Events) : Prop := a &&& ~~~b = 0

instance (a b : Events) : Decidable (Within a b) := inferInstanceAs (Decidable (_ = _))

/-- What `poll_cb` is called with: an error, or events. -/
structure Call where
  error : Option ℕ
  events : Events
deriving DecidableEq

structure Handle where
  events : Events
  submittedEvents1 : Events
  submittedEvents2 : Events
  maskEvents1 : Events
  maskEvents2 : Events
  active : Bool
  closing : Bool
  closed : Bool
  endgameQueued : Bool
  outstanding1 : ℕ
  outstanding2 : ℕ
  closeCbs : ℕ
  latest : Events
  /-- the callback that is running -/
  call : Option Call
deriving DecidableEq

/-- `poll_req_1` or `poll_req_2`. -/
inductive Req
  | one
  | two
deriving DecidableEq

/-- How a request returns: with an error; or with the handles that are ready and the events of the first (in
slow mode, only the events). -/
inductive Result
  | error (err : ℕ)
  | success (numberOfHandles : ℕ) (events : BitVec 32)
deriving DecidableEq

/-! ## Operations -/

/-- The masks are not initialised.
mirrors win/poll.c:415-485 -/
def pollInit (mask1 mask2 : Events) : Handle :=
  ⟨0, 0, 0, mask1, mask2, false, false, false, false, 0, 0, 0, 0, none⟩

namespace Handle
variable (h : Handle)

/-- Finds a request that is not submitted. The two modes differ in what they do when there is none. -/
def submitPollReq (busy : Option Handle) : Option Handle :=
  if h.submittedEvents1 = 0 then
    some { h with submittedEvents1 := h.events, maskEvents1 := 0, maskEvents2 := h.events, outstanding1 := h.outstanding1 + 1 }
  else if h.submittedEvents2 = 0 then
    some { h with submittedEvents2 := h.events, maskEvents1 := h.events, maskEvents2 := 0, outstanding2 := h.outstanding2 + 1 }
  else busy

/-- mirrors win/poll.c:77-138 -/
def fastPollSubmitPollReq : Option Handle := h.submitPollReq (some h)

/-- mirrors win/poll.c:338-364 -/
def slowPollSubmitPollReq : Option Handle := h.submitPollReq none

def submit (slow : Bool) : Option Handle := if slow then h.slowPollSubmitPollReq else h.fastPollSubmitPollReq

/-- The events that were asked for and not submitted, if any. -/
def Unsubmitted : Prop := ¬ Within h.events (h.submittedEvents1 ||| h.submittedEvents2)

instance : Decidable h.Unsubmitted := inferInstanceAs (Decidable (¬ _))

/-- mirrors win/poll.c:488-516 -/
def pollSet (slow : Bool) (events : Events) : Option Handle :=
  let h := { h with events := events }
  if h.events = 0 then some { h with active := false }
  else
    let h := { h with active := true }
    if h.Unsubmitted then h.submit slow else some h

/-- mirrors win/poll.c:519-521 -/
def pollStart (slow : Bool) (events : Events) : Option Handle := { h with latest := events }.pollSet slow events

/-- mirrors win/poll.c:524-526 -/
def pollStop (slow : Bool) : Option Handle := h.pollSet slow 0

/-- `uv__want_endgame` -/
def wantEndgame : Handle := { h with endgameQueued := true }

/-- The request returns; what it was masked with.
mirrors win/poll.c:146-157 -/
def returned : Req → Handle × Events
  | .one => ({ h with submittedEvents1 := 0, outstanding1 := h.outstanding1 - 1 }, h.maskEvents1)
  | .two => ({ h with submittedEvents2 := 0, outstanding2 := h.outstanding2 - 1 }, h.maskEvents2)

/-- What is done behind the callback, or without one.
mirrors win/poll.c:194-201 -/
def afterCallback (slow : Bool) : Option Handle :=
  if h.Unsubmitted then h.submit slow
  else if h.closing ∧ h.submittedEvents1 = 0 ∧ h.submittedEvents2 = 0 then some h.wantEndgame
  else some h

/-- The callback is called if there is anything to report. -/
def report (slow : Bool) : Option Call → Option Handle
  | some c => some { h with call := some c }
  | none => h.afterCallback slow

end Handle

/-- mirrors win/poll.c:170-181 -/
def reportedEvents (afd : BitVec 32) : Events :=
  (if afd &&& (AFD_POLL_RECEIVE ||| AFD_POLL_DISCONNECT ||| AFD_POLL_ACCEPT ||| AFD_POLL_ABORT) ≠ 0 then
    UV_READABLE ||| if afd &&& AFD_POLL_DISCONNECT ≠ 0 then UV_DISCONNECT else 0
  else 0) |||
  if afd &&& (AFD_POLL_SEND ||| AFD_POLL_CONNECT_FAIL) ≠ 0 then UV_WRITABLE else 0

namespace Handle
variable (h : Handle)

/-- mirrors win/poll.c:139-202 -/
def fastPollProcessPollReq (req : Req) (result : Result) : Option Handle :=
  let mask := (h.returned req).2
  let h := (h.returned req).1
  match result with
  | .error err =>
    if err ≠ WSAEINTR ∧ h.events ≠ 0 then { h with events := 0 }.report false (some ⟨some err, 0⟩)
    else h.report false none
  | .success numberOfHandles afd =>
    if 1 ≤ numberOfHandles then
      let events := reportedEvents afd &&& (h.events &&& ~~~mask)
      let h := if afd &&& AFD_POLL_LOCAL_CLOSE ≠ 0 then { h with events := 0, active := false } else h
      h.report false (if events ≠ 0 then some ⟨none, events⟩ else none)
    else h.report false none

/-- mirrors win/poll.c:368-407 -/
def slowPollProcessPollReq (req : Req) (result : Result) : Option Handle :=
  let mask := (h.returned req).2
  let h := (h.returned req).1
  match result with
  | .error err =>
    if h.events ≠ 0 then { h with events := 0 }.report true (some ⟨some err, 0⟩) else h.report true none
  | .success _ reported =>
    let events := reported.setWidth 8 &&& h.events &&& ~~~mask
    h.report true (if events ≠ 0 then some ⟨none, events⟩ else none)

/-- mirrors win/poll.c:529-535 -/
def processPollReq (slow : Bool) (req : Req) (result : Result) : Option Handle :=
  if slow then h.slowPollProcessPollReq req result else h.fastPollProcessPollReq req result

/-- In fast mode, requests that are outstanding are made to return.
mirrors win/poll.c:538-574 -/
def pollClose : Handle :=
  let h := { h with events := 0, closing := true, active := false }
  if h.submittedEvents1 = 0 ∧ h.submittedEvents2 = 0 then h.wantEndgame else h

/-- mirrors win/poll.c:579-588 -/
def pollEndgame : Option Handle :=
  let h := { h with endgameQueued := false }
  if h.closing ∧ h.closed = false ∧ h.submittedEvents1 = 0 ∧ h.submittedEvents2 = 0 then
    some { h with closed := true, closeCbs := h.closeCbs + 1 }
  else none

def outstanding : Req → ℕ
  | .one => h.outstanding1
  | .two => h.outstanding2

end Handle

/-! ## The system -/

inductive Label
  | start (events : Events)
  | stop
  | close
  | process (req : Req) (result : Result)
  | ret
  | endgame
  /-- something that does not concern the handle -/
  | other
deriving DecidableEq

/-- The user leaves a handle that is closing alone, and starts with known events. -/
def enabled (h : Handle) : Label → Prop
  | .start events => h.closing = false ∧ Within events (UV_READABLE ||| UV_WRITABLE ||| UV_DISCONNECT ||| UV_PRIORITIZED)
  | .stop | .close => h.closing = false
  | .process req _ => h.call = none ∧ 0 < h.outstanding req
  | .ret => h.call ≠ none
  | .endgame => h.call = none ∧ h.endgameQueued = true
  | .other => True

def step (slow : Bool) (h : Handle) : Label → Option Handle
  | .start events => h.pollStart slow events
  | .stop => h.pollStop slow
  | .close => some h.pollClose
  | .process req result => h.processPollReq slow req result
  | .ret => { h with call := none }.afterCallback slow
  | .endgame => h.pollEndgame
  | .other => some h

def system (slow : Bool) : LTS Handle Label where
  init h := ∃ mask1 mask2, h = pollInit mask1 mask2
  step h l t := enabled h l ∧ step slow h l = some t

/-- No request reports an error to a handle that watches, but for an interrupt in fast mode; and in slow mode no start
asks for more than is submitted while both requests are outstanding. -/
def Orderly (slow : Bool) (h : Handle) : Label → Prop
  | .start events => slow = true → ¬ Within events (h.submittedEvents1 ||| h.submittedEvents2) →
      h.submittedEvents1 = 0 ∨ h.submittedEvents2 = 0
  | .process _ (.error err) => h.events = 0 ∨ slow = false ∧ err = WSAEINTR
  | _ => True

/-! ## Sets -/

theorem zero_within (a : Events) : Within 0 a := BitVec.zero_and

theorem within_or_left (a b : Events) : Within a (a ||| b) := by
  ext i hi
  grind

theorem within_or_right (a b : Events) : Within a (b ||| a) := by
  rw [BitVec.or_comm]
  exact within_or_left a b

theorem within_of_and {a b : Events} (x y : Events) (h : Within a b) : Within (x &&& (a &&& y)) b := by
  unfold Within at h ⊢
  have hz : x &&& (a &&& y) &&& ~~~b = x &&& y &&& (a &&& ~~~b) := by
    ext i hi
    grind
  rw [hz, h]
  exact BitVec.and_zero

/-! ## One step -/

variable {slow : Bool} {h t : Handle}

structure Base (h : Handle) : Prop where
  out1 : h.outstanding1 = if h.submittedEvents1 = 0 then 0 else 1
  out2 : h.outstanding2 = if h.submittedEvents2 = 0 then 0 else 1
  latest : Within h.events h.latest
  active : h.closing = false → (h.active = true ↔ h.events ≠ 0)
  stopped : h.closing = true → h.events = 0
  queued : h.endgameQueued = true → h.closing = true ∧ h.closed = false ∧ h.submittedEvents1 = 0 ∧ h.submittedEvents2 = 0
  closed : h.closed = true → h.closing = true ∧ h.submittedEvents1 = 0 ∧ h.submittedEvents2 = 0 ∧ h.call = none
  closeCbs : h.closeCbs = if h.closed then 1 else 0

structure Inv (slow : Bool) (h : Handle) : Prop extends Base h where
  covered : h.Unsubmitted → slow = false ∧ h.submittedEvents1 ≠ 0 ∧ h.submittedEvents2 ≠ 0 ∨
    h.call ≠ none ∧ (h.submittedEvents1 = 0 ∨ h.submittedEvents2 = 0)
  path : h.closing = true → h.closed = false →
    h.endgameQueued = true ∨ h.submittedEvents1 ≠ 0 ∨ h.submittedEvents2 ≠ 0 ∨ h.call ≠ none

theorem Base.open_of_events (hb : Base h) (h0 : h.events ≠ 0) : h.closing = false := by
  by_contra hc
  exact h0 (hb.stopped (by simpa using hc))

theorem Base.closed_of_open (hb : Base h) (hcl : h.closing = false) : h.closed = false := by
  by_contra hc
  exact absurd (hcl.symm.trans (hb.closed (by simpa using hc)).1) (by decide)

theorem Base.queued_of_open (hb : Base h) (hcl : h.closing = false) : h.endgameQueued = false := by
  by_contra hq
  exact absurd (hcl.symm.trans (hb.queued (by simpa using hq)).1) (by decide)

theorem Handle.Unsubmitted.events_ne (hu : h.Unsubmitted) : h.events ≠ 0 := by
  intro e
  refine hu ?_
  rw [e]
  exact zero_within _

theorem submit_eq : h.submit slow = h.submitPollReq (if slow then none else some h) := by cases slow <;> rfl

theorem Base.submit (hb : Base h) (hu : h.Unsubmitted)
    (hfree : slow = true → h.submittedEvents1 = 0 ∨ h.submittedEvents2 = 0) : ∃ t, h.submit slow = some t ∧ Inv slow t := by
  have h0 := hu.events_ne
  have hcl := hb.open_of_events h0
  have hcd := hb.closed_of_open hcl
  have hq := hb.queued_of_open hcl
  rw [submit_eq, Handle.submitPollReq]
  split
  · next h1 =>
    have hcov : Within h.events (h.events ||| h.submittedEvents2) := within_or_left _ _
    refine ⟨_, rfl, { hb with out1 := ?_, queued := by simp [hq], closed := by simp [hcd] }, fun hu => absurd hcov hu, by simp [hcl]⟩
    simp only [hb.out1, if_pos h1, if_neg h0]
  · next h1 =>
    split
    · next h2 =>
      have hcov : Within h.events (h.submittedEvents1 ||| h.events) := within_or_right _ _
      refine ⟨_, rfl, { hb with out2 := ?_, queued := by simp [hq], closed := by simp [hcd] }, fun hu => absurd hcov hu, by simp [hcl]⟩
      simp only [hb.out2, if_pos h2, if_neg h0]
    · next h2 =>
      cases slow with
      | true => exact ((hfree rfl).elim h1 h2).elim
      | false => exact ⟨h, rfl, hb, fun _ => .inl ⟨rfl, h1, h2⟩, by simp [hcl]⟩

theorem Base.afterCallback (hb : Base h) (hcd : h.closed = false)
    (hfree : slow = true → h.Unsubmitted → h.submittedEvents1 = 0 ∨ h.submittedEvents2 = 0) :
    ∃ t, h.afterCallback slow = some t ∧ Inv slow t := by
  unfold Handle.afterCallback
  split
  · next hu => exact hb.submit hu fun hs => hfree hs hu
  · next hu =>
    split
    · next hc =>
      exact ⟨_, rfl, { hb with queued := fun _ => ⟨hc.1, hcd, hc.2.1, hc.2.2⟩ }, fun h => absurd h hu, fun _ _ => .inl rfl⟩
    · next hc =>
      refine ⟨h, rfl, hb, fun h => absurd h hu, fun h1 _ => .inr ?_⟩
      by_cases e1 : h.submittedEvents1 = 0
      · exact .inr (.inl fun e2 => hc ⟨h1, e1, e2⟩)
      · exact .inl e1

theorem Inv.pollSet (hi : Inv slow h) (hcl : h.closing = false) (events latest : Events) (hl : Within events latest)
    (hfree : slow = true → ¬ Within events (h.submittedEvents1 ||| h.submittedEvents2) →
      h.submittedEvents1 = 0 ∨ h.submittedEvents2 = 0) :
    ∃ t, { h with latest := latest }.pollSet slow events = some t ∧ Inv slow t := by
  have hstop (hc : h.closing = true) : events = 0 := absurd (hcl.symm.trans hc) (by decide)
  have hpath (hc : h.closing = true) : False := absurd (hcl.symm.trans hc) (by decide)
  unfold Handle.pollSet
  dsimp only
  split
  · next h0 =>
    subst h0
    exact ⟨_, rfl, { hi.toBase with latest := hl, active := fun _ => by simp, stopped := hstop },
      fun hu => absurd (zero_within _) hu, fun hc => (hpath hc).elim⟩
  · next h0 =>
    have hb : Base { h with latest := latest, events := events, active := true } :=
      { hi.toBase with latest := hl, active := fun _ => by simpa using h0, stopped := hstop }
    split
    · next hu => exact hb.submit hu fun hs => hfree hs hu
    · next hu => exact ⟨_, rfl, hb, fun h => absurd h hu, fun hc => (hpath hc).elim⟩

theorem Inv.close (hi : Inv slow h) (hcl : h.closing = false) : Inv slow h.pollClose := by
  have hcd := hi.closed_of_open hcl
  have hq := hi.queued_of_open hcl
  unfold Handle.pollClose
  dsimp only
  split
  · next h0 =>
    exact ⟨⟨hi.out1, hi.out2, zero_within _, by simp [Handle.wantEndgame], fun _ => rfl, fun _ => ⟨rfl, hcd, h0⟩,
      fun hc => absurd (hcd.symm.trans hc) (by decide), hi.closeCbs⟩, fun hu => absurd (zero_within _) hu, fun _ _ => .inl rfl⟩
  · next h0 =>
    refine ⟨⟨hi.out1, hi.out2, zero_within _, by simp, fun _ => rfl,
      fun h => absurd (hq.symm.trans h) (by decide), fun hc => absurd (hcd.symm.trans hc) (by decide), hi.closeCbs⟩,
      fun hu => absurd (zero_within _) hu, fun _ _ => .inr ?_⟩
    by_cases e1 : h.submittedEvents1 = 0
    · exact .inr (.inl fun e2 => h0 ⟨e1, e2⟩)
    · exact .inl e1

theorem submit_call (ht : h.submit slow = some t) : t.call = h.call := by
  rw [submit_eq, Handle.submitPollReq] at ht
  split_ifs at ht <;> cases ht <;> rfl

theorem afterCallback_call (ht : h.afterCallback slow = some t) : t.call = h.call := by
  unfold Handle.afterCallback at ht
  split_ifs at ht
  · exact submit_call ht
  · cases ht
    rfl
  · cases ht
    rfl

theorem Inv.returned (hi : Inv slow h) {req : Req} (hout : 0 < h.outstanding req) :
    Base (h.returned req).1 ∧ (h.returned req).1.closed = false ∧
      ((h.returned req).1.submittedEvents1 = 0 ∨ (h.returned req).1.submittedEvents2 = 0) ∧
      (h.returned req).1.latest = h.latest ∧ (h.returned req).1.events = h.events := by
  have hne : h.submittedEvents1 ≠ 0 ∨ h.submittedEvents2 ≠ 0 := by
    cases req with
    | one => exact .inl fun e => by simp [Handle.outstanding, hi.out1, e] at hout
    | two => exact .inr fun e => by simp [Handle.outstanding, hi.out2, e] at hout
  have hq : h.endgameQueued = true → False := fun hq => hne.elim (· (hi.queued hq).2.2.1) (· (hi.queued hq).2.2.2)
  have hcd : h.closed = true → False := fun hc => hne.elim (· (hi.closed hc).2.1) (· (hi.closed hc).2.2.1)
  have hcd' : h.closed = false := by simpa using hcd
  cases req with
  | one =>
    have h1 : h.outstanding1 - 1 = 0 := by
      rw [hi.out1]
      split <;> rfl
    refine ⟨{ hi.toBase with out1 := ?_, queued := fun h => (hq h).elim, closed := fun h => (hcd h).elim }, hcd', .inl rfl, rfl, rfl⟩
    simp [Handle.returned, h1]
  | two =>
    have h2 : h.outstanding2 - 1 = 0 := by
      rw [hi.out2]
      split <;> rfl
    refine ⟨{ hi.toBase with out2 := ?_, queued := fun h => (hq h).elim, closed := fun h => (hcd h).elim }, hcd', .inr rfl, rfl, rfl⟩
    simp [Handle.returned, h2]

theorem Base.report (hb : Base h) (hcd : h.closed = false) (hfree : h.submittedEvents1 = 0 ∨ h.submittedEvents2 = 0)
    (hcall : h.call = none) (c : Option Call) : ∃ t, h.report slow c = some t ∧ Inv slow t ∧ t.call = c := by
  cases c with
  | none =>
    obtain ⟨t, ht, hi⟩ : ∃ t, h.afterCallback slow = some t ∧ Inv slow t := hb.afterCallback hcd fun _ _ => hfree
    exact ⟨t, ht, hi, (afterCallback_call ht).trans hcall⟩
  | some c =>
    refine ⟨_, rfl, ⟨{ hb with closed := fun hc => ?_ }, fun _ => .inr ⟨by simp, hfree⟩, fun _ _ => .inr (.inr (.inr (by simp)))⟩, rfl⟩
    exact absurd (hcd.symm.trans hc) (by decide)

theorem returned_call (req : Req) : (h.returned req).1.call = h.call := by cases req <;> rfl

theorem Inv.process (hi : Inv slow h) {req : Req} {result : Result} (he : enabled h (.process req result))
    (ho : Orderly slow h (.process req result)) : ∃ t, h.processPollReq slow req result = some t ∧ Inv slow t ∧
      ∀ c ∈ t.call, c.error = none ∧ Within c.events h.latest := by
  obtain ⟨hcall, hout⟩ := he
  obtain ⟨hb, hcd, hfree, hl, hev⟩ := hi.returned hout
  have hcall' := (returned_call req).trans hcall
  have hquiet : ∃ t, (h.returned req).1.report slow none = some t ∧ Inv slow t ∧
      ∀ c ∈ t.call, c.error = none ∧ Within c.events h.latest := by
    obtain ⟨t, ht, hit, hc⟩ := hb.report hcd hfree hcall' none
    exact ⟨t, ht, hit, by simp [hc]⟩
  have hsome {g : Handle} (hg : Base g) (h1 : g.closed = false) (h2 : g.submittedEvents1 = 0 ∨ g.submittedEvents2 = 0)
      (h3 : g.call = none) {e : Events} (hw : Within e h.latest) :
      ∃ t, g.report slow (if e ≠ 0 then some ⟨none, e⟩ else none) = some t ∧ Inv slow t ∧
        ∀ c ∈ t.call, c.error = none ∧ Within c.events h.latest := by
    obtain ⟨t, ht, hit, hc⟩ := hg.report h1 h2 h3 (if e ≠ 0 then some ⟨none, e⟩ else none)
    refine ⟨t, ht, hit, fun c hc' => ?_⟩
    rw [hc] at hc'
    split at hc'
    · cases hc'
      exact ⟨rfl, hw⟩
    · cases hc'
  cases slow with
  | true =>
    rw [Handle.processPollReq, if_pos rfl]
    unfold Handle.slowPollProcessPollReq
    cases result with
    | error err =>
      have h0 : h.events = 0 := ho.resolve_right (by simp)
      simpa only [hev, h0, ne_eq, not_true_eq_false, if_false] using hquiet
    | success n reported =>
      refine hsome hb hcd hfree hcall' ?_
      rw [BitVec.and_assoc, hev]
      exact within_of_and _ _ hi.latest
  | false =>
    rw [Handle.processPollReq, if_neg (by decide)]
    unfold Handle.fastPollProcessPollReq
    cases result with
    | error err =>
      have h0 : ¬ (err ≠ WSAEINTR ∧ h.events ≠ 0) := by
        rcases ho with h0 | ⟨-, h0⟩ <;> simp [h0]
      simpa only [hev, if_neg h0] using hquiet
    | success n afd =>
      dsimp only
      split
      · have hlatest : Within (h.returned req).1.events h.latest := hev ▸ hi.latest
        have hw := within_of_and (reportedEvents afd) (~~~(h.returned req).2) hlatest
        split
        · have hb' : Base { (h.returned req).1 with events := 0, active := false } :=
            { hb with latest := zero_within _, active := by simp, stopped := fun _ => rfl }
          exact hsome hb' hcd hfree hcall' hw
        · exact hsome hb hcd hfree hcall' hw
      · exact hquiet

theorem step_spec (hi : Inv slow h) {l : Label} (he : enabled h l) (ho : Orderly slow h l) :
    ∃ t, step slow h l = some t ∧ Inv slow t := by
  cases l with
  | start events =>
    have hw : Within events events := by
      have := within_or_left events events
      rwa [BitVec.or_self] at this
    exact hi.pollSet he.1 events events hw ho
  | stop => exact hi.pollSet he 0 h.latest (zero_within _) fun _ hn => absurd (zero_within _) hn
  | close => exact ⟨_, rfl, hi.close he⟩
  | process req result =>
    obtain ⟨t, ht, hit, -⟩ := hi.process he ho
    exact ⟨t, ht, hit⟩
  | ret =>
    have hcd : h.closed = false := by
      by_contra hc
      exact he (hi.closed (by simpa using hc)).2.2.2
    have hb : Base { h with call := none } := { hi.toBase with closed := fun hc => absurd (hcd.symm.trans hc) (by decide) }
    refine hb.afterCallback hcd fun hs hu => ?_
    rcases hi.covered hu with ⟨h1, -⟩ | ⟨-, h2⟩
    · rw [h1] at hs
      cases hs
    · exact h2
  | endgame =>
    obtain ⟨hcall, hq⟩ := he
    obtain ⟨h1, h2, h3, h4⟩ := hi.queued hq
    have hend : h.pollEndgame = some { h with endgameQueued := false, closed := true, closeCbs := h.closeCbs + 1 } := by
      simp [Handle.pollEndgame, h1, h2, h3, h4]
    refine ⟨_, hend, { hi.toBase with queued := by simp, closed := fun _ => ⟨h1, h3, h4, hcall⟩, closeCbs := ?_ }, hi.covered, by simp⟩
    simp [hi.closeCbs, h2]
  | other => exact ⟨h, rfl, hi⟩

theorem inv_inductive (slow : Bool) : ((system slow).restrict (Orderly slow)).Inductive (Inv slow) where
  init := by
    rintro _ ⟨m1, m2, rfl⟩
    exact ⟨⟨rfl, rfl, zero_within _, by simp [pollInit], by simp [pollInit], by simp [pollInit], by simp [pollInit], rfl⟩,
      fun hu => absurd (zero_within _) hu, by simp [pollInit]⟩
  step h l t hi hst := by
    obtain ⟨u, hu, hiu⟩ := step_spec hi hst.2.1 hst.1
    cases hu.symm.trans hst.2.2
    exact hiu

theorem step_call {l : Label} (hl : ∀ req result, l ≠ .process req result) (hs : step slow h l = some t) :
    t.call = h.call ∨ t.call = none := by
  have hset (g : Handle) (events : Events) (hs : g.pollSet slow events = some t) : t.call = g.call := by
    unfold Handle.pollSet at hs
    dsimp only at hs
    split_ifs at hs
    · cases hs
      rfl
    · have hc := submit_call hs
      exact hc
    · cases hs
      rfl
  cases l with
  | start events => exact .inl (hset { h with latest := events } events hs)
  | stop => exact .inl (hset h 0 hs)
  | close =>
    cases hs
    unfold Handle.pollClose
    dsimp only
    split_ifs <;> exact .inl rfl
  | process req result => exact absurd rfl (hl req result)
  | ret => exact .inr (afterCallback_call hs)
  | endgame =>
    simp only [step, Handle.pollEndgame] at hs
    split at hs
    · cases hs
      exact .inl rfl
    · cases hs
  | other =>
    cases hs
    exact .inl rfl

/-! ## Fair runs -/

inductive Thread
  | loop
  | request (req : Req)
  | elsewhere

def Label.thread : Label → Thread
  | .process req _ => .request req
  | .ret | .endgame => .loop
  | _ => .elsewhere

/-- A request that is outstanding returns and is processed, a callback returns, and an endgame that is queued is run. -/
def Active : Thread → Handle → Prop
  | .loop, h => h.call ≠ none ∨ h.endgameQueued = true
  | .request req, h => 0 < h.outstanding req
  | .elsewhere, _ => False

def Helps : Thread → Handle → Prop
  | .loop, h => h.call ≠ none ∨ h.submittedEvents1 = 0 ∧ h.submittedEvents2 = 0
  | .request req, h => h.call = none ∧ 0 < h.outstanding req
  | .elsewhere, _ => False

/-- What is left before a handle that is closing is closed. -/
def Handle.left (h : Handle) : ℕ := h.outstanding1 + h.outstanding2 + h.call.elim 0 fun _ => 1

theorem afterCallback_quiet (h0 : h.events = 0) (ht : h.afterCallback slow = some t) : t.outstanding1 = h.outstanding1 ∧
    t.outstanding2 = h.outstanding2 ∧ t.closing = h.closing ∧ t.closed = h.closed ∧ t.call = h.call := by
  have hu : ¬ h.Unsubmitted := fun hu => hu.events_ne h0
  rw [Handle.afterCallback, if_neg hu] at ht
  split at ht <;> cases ht <;> exact ⟨rfl, rfl, rfl, rfl, rfl⟩

theorem process_quiet (h0 : h.events = 0) {req : Req} {result : Result} (ht : h.processPollReq slow req result = some t) :
    t.outstanding1 = (h.returned req).1.outstanding1 ∧ t.outstanding2 = (h.returned req).1.outstanding2 ∧
      t.closing = h.closing ∧ t.closed = h.closed ∧ t.call = h.call := by
  have hr : (h.returned req).1.events = 0 ∧ (h.returned req).1.closing = h.closing ∧ (h.returned req).1.closed = h.closed := by
    cases req <;> exact ⟨h0, rfl, rfl⟩
  have hzero (a : Events) : a &&& (0 : Events) = 0 := BitVec.and_zero
  have hquiet (ht : (h.returned req).1.report slow none = some t) : t.outstanding1 = (h.returned req).1.outstanding1 ∧
      t.outstanding2 = (h.returned req).1.outstanding2 ∧ t.closing = h.closing ∧ t.closed = h.closed ∧ t.call = h.call := by
    obtain ⟨e1, e2, e3, e4, e5⟩ := afterCallback_quiet hr.1 ht
    exact ⟨e1, e2, e3.trans hr.2.1, e4.trans hr.2.2, e5.trans (returned_call req)⟩
  cases slow with
  | true =>
    rw [Handle.processPollReq, if_pos rfl] at ht
    unfold Handle.slowPollProcessPollReq at ht
    cases result with
    | error err => exact hquiet (by simpa [hr.1] using ht)
    | success n reported =>
      have hz : reported.setWidth 8 &&& (h.returned req).1.events &&& ~~~(h.returned req).2 = 0 := by
        rw [hr.1, hzero]
        exact BitVec.zero_and
      exact hquiet (by simpa only [hz, ne_eq, not_true_eq_false, if_false] using ht)
  | false =>
    rw [Handle.processPollReq, if_neg (by decide)] at ht
    unfold Handle.fastPollProcessPollReq at ht
    cases result with
    | error err => exact hquiet (by simpa [hr.1] using ht)
    | success n afd =>
      have hz : reportedEvents afd &&& ((h.returned req).1.events &&& ~~~(h.returned req).2) = 0 := by
        have : (h.returned req).1.events &&& ~~~(h.returned req).2 = 0 := by
          rw [hr.1]
          exact BitVec.zero_and
        rw [this, hzero]
      simp only [hz, ne_eq, not_true_eq_false, if_false] at ht
      split at ht
      · split at ht
        · -- polling is stopped, and was already
          obtain ⟨e1, e2, e3, e4, e5⟩ := afterCallback_quiet rfl ht
          exact ⟨e1, e2, e3.trans hr.2.1, e4.trans hr.2.2, e5.trans (returned_call req)⟩
        · exact hquiet ht
      · exact hquiet ht

theorem closing_step (hi : Inv slow h) (hc : h.closing = true) (hcd : h.closed = false) {l : Label} (he : enabled h l)
    (hs : step slow h l = some t) : t.closed = true ∨ (t.closing = true ∧ t.closed = false) ∧
      (t.left < h.left ∨ t.left = h.left ∧ ∀ p, Helps p h → l.thread ≠ p ∧ Helps p t) := by
  have h0 := hi.stopped hc
  have hopen (ho : h.closing = false) : False := absurd (ho.symm.trans hc) (by decide)
  cases l with
  | start events => exact (hopen he.1).elim
  | stop | close => exact (hopen he).elim
  | process req result =>
    obtain ⟨hcall, hout⟩ := he
    obtain ⟨e1, e2, e3, e4, e5⟩ := process_quiet h0 hs
    refine .inr ⟨⟨e3.trans hc, e4.trans hcd⟩, .inl ?_⟩
    rw [Handle.left, Handle.left, e1, e2, e5]
    cases req with
    | one =>
      change 0 < h.outstanding1 at hout
      change h.outstanding1 - 1 + h.outstanding2 + _ < _
      omega
    | two =>
      change 0 < h.outstanding2 at hout
      change h.outstanding1 + (h.outstanding2 - 1) + _ < _
      omega
  | ret =>
    obtain ⟨c, hcall⟩ := Option.ne_none_iff_exists'.1 he
    obtain ⟨e1, e2, e3, e4, e5⟩ := afterCallback_quiet (h := { h with call := none }) h0 hs
    refine .inr ⟨⟨e3.trans hc, e4.trans hcd⟩, .inl ?_⟩
    rw [Handle.left, Handle.left, e1, e2, e5, hcall]
    exact Nat.lt_succ_self _
  | endgame =>
    obtain ⟨h1, h2, h3, h4⟩ := hi.queued he.2
    simp only [step, Handle.pollEndgame, h1, h2, h3, h4, and_self, if_true] at hs
    cases hs
    exact .inl rfl
  | other =>
    cases hs
    refine .inr ⟨⟨hc, hcd⟩, .inr ⟨rfl, fun p hp => ⟨fun e => ?_, hp⟩⟩⟩
    subst e
    exact hp

theorem closes (ρ : ((system slow).restrict (Orderly slow)).InfRun) (hf : ρ.Fair Label.thread Active) {n : ℕ}
    (hc : (ρ.state n).closing = true) : ∃ m, n ≤ m ∧ (ρ.state m).closed = true := by
  by_cases hcd : (ρ.state n).closed = true
  · exact ⟨n, le_rfl, hcd⟩
  obtain ⟨m, hm, hq⟩ := ρ.leads_to (fun h => h.closing = true ∧ h.closed = false) Helps Handle.left (fun _ _ t => t.closed = true) hf
    (fun p h hr hP hp => by
      cases p with
      | loop =>
        rcases hp with hp | ⟨h1, h2⟩
        · exact .inl hp
        · rcases ((inv_inductive slow).reachable hr).path hP.1 hP.2 with hq | hq | hq | hq
          · exact .inr hq
          · exact absurd h1 hq
          · exact absurd h2 hq
          · exact .inl hq
      | request req => exact hp.2
      | elsewhere => exact hp)
    (fun h hr hP => by
      have hi := (inv_inductive slow).reachable hr
      by_cases hcall : h.call = none
      · by_cases h1 : h.submittedEvents1 = 0
        · by_cases h2 : h.submittedEvents2 = 0
          · exact ⟨.loop, .inr ⟨h1, h2⟩⟩
          · exact ⟨.request .two, hcall, by simp only [Handle.outstanding, hi.out2, if_neg h2, one_pos]⟩
        · exact ⟨.request .one, hcall, by simp only [Handle.outstanding, hi.out1, if_neg h1, one_pos]⟩
      · exact ⟨.loop, .inl hcall⟩)
    (fun h l t hr hP hst => closing_step ((inv_inductive slow).reachable hr) hP.1 hP.2 hst.2.1 hst.2.2) n
    ⟨hc, by simpa using hcd⟩
  exact ⟨m + 1, by omega, hq⟩

/-- **Poll handles**, in either mode, over any order of `Orderly` steps. A request is outstanding exactly while its set
is not empty, and then once; outside of processing, what is watched for is submitted or both requests
are outstanding; a handle that is not closing is active exactly while it watches; no step fails, and a callback gets
events of the last start; a close callback is called once, behind both requests, and in a fair
run it is called. -/
theorem poll_requests (slow : Bool) :
    (∀ h, ((system slow).restrict (Orderly slow)).Reachable h →
      (h.outstanding1 = (if h.submittedEvents1 = 0 then 0 else 1) ∧ h.outstanding2 = if h.submittedEvents2 = 0 then 0 else 1) ∧
      (h.call = none → Within h.events (h.submittedEvents1 ||| h.submittedEvents2) ∨
        h.submittedEvents1 ≠ 0 ∧ h.submittedEvents2 ≠ 0) ∧ (h.closing = false → (h.active = true ↔ h.events ≠ 0)) ∧
      (h.closeCbs ≤ 1 ∧ (0 < h.closeCbs → h.closing = true ∧ h.outstanding1 = 0 ∧ h.outstanding2 = 0)) ∧
      ∀ l, enabled h l → Orderly slow h l →
        ∃ t, step slow h l = some t ∧ (h.call = none → ∀ c ∈ t.call, Within c.events h.latest)) ∧
    ∀ ρ : ((system slow).restrict (Orderly slow)).InfRun, ρ.Fair Label.thread Active →
      ∀ n, (ρ.state n).closing = true → ∃ m, n ≤ m ∧ (ρ.state m).closeCbs = 1 := by
  refine ⟨fun h hr => ?_, fun ρ hf n hc => ?_⟩
  · have hi := (inv_inductive slow).reachable hr
    refine ⟨⟨hi.out1, hi.out2⟩, fun hcall => ?_, hi.active, ⟨?_, fun h0 => ?_⟩, fun l he ho => ?_⟩
    · by_cases hu : h.Unsubmitted
      · rcases hi.covered hu with ⟨-, hb⟩ | ⟨hne, -⟩
        · exact .inr hb
        · exact absurd hcall hne
      · exact .inl (not_not.1 hu)
    · rw [hi.closeCbs]
      split <;> decide
    · have hcd : h.closed = true := by
        by_contra hc
        rw [hi.closeCbs, if_neg hc] at h0
        cases h0
      obtain ⟨h1, h2, h3, -⟩ := hi.closed hcd
      exact ⟨h1, by rw [hi.out1, if_pos h2], by rw [hi.out2, if_pos h3]⟩
    · obtain ⟨t, ht, -⟩ := step_spec hi he ho
      refine ⟨t, ht, fun hcall c hc => ?_⟩
      by_cases hl : ∃ req result, l = .process req result
      · obtain ⟨req, result, rfl⟩ := hl
        obtain ⟨u, hu, -, hcu⟩ := hi.process he ho
        cases hu.symm.trans ht
        exact (hcu c hc).2
      · rcases step_call (fun req result e => hl ⟨req, result, e⟩) ht with e | e
        · rw [e, hcall] at hc
          cases hc
        · rw [e] at hc
          cases hc
  · obtain ⟨m, hm, hcd⟩ := closes ρ hf hc
    exact ⟨m, hm, by rw [((inv_inductive slow).reachable (ρ.reachable m)).closeCbs, if_pos hcd]⟩

theorem run_step {l : Label} (he : enabled h l) (hs : step slow h l = some t) : (system slow).step h l t := ⟨he, hs⟩

/-- **After an error the handle stays active**: the callback is called with nothing to watch for. -/
theorem error_stays_active : ¬ ∀ slow h, (system slow).Reachable h → h.closing = false → (h.active = true ↔ h.events ≠ 0) := by
  intro hall
  have h0 : (system false).Reachable (pollInit 0 0) := .init ⟨0, 0, rfl⟩
  have h1 := h0.step (run_step (l := .start UV_READABLE) ⟨rfl, by decide⟩ rfl)
  have h2 := h1.step (run_step (l := .process .one (.error 10054)) ⟨rfl, by decide⟩ rfl)
  exact absurd ((hall _ _ h2 rfl).1 rfl) (by decide)

theorem slow_third : ∃ h, (system true).Reachable h ∧ enabled h (.start UV_DISCONNECT) ∧
    step true h (.start UV_DISCONNECT) = none := by
  have h0 : (system true).Reachable (pollInit 0 0) := .init ⟨0, 0, rfl⟩
  have h1 := h0.step (run_step (l := .start UV_READABLE) ⟨rfl, by decide⟩ rfl)
  have h2 := h1.step (run_step (l := .start UV_WRITABLE) ⟨rfl, by decide⟩ rfl)
  exact ⟨_, h2, ⟨rfl, by decide⟩, rfl⟩

/-! ## A run -/

/-- A watcher for both kinds of events is told of one, and is closed in its callback; the other request returns
later. -/
def closeStates : ℕ → Handle
  | 0 => pollInit 0 0
  | 1 => ⟨1, 1, 0, 0, 1, true, false, false, false, 1, 0, 0, 1, none⟩
  | 2 => ⟨3, 1, 3, 3, 0, true, false, false, false, 1, 1, 0, 3, none⟩
  | 3 => ⟨3, 1, 0, 3, 0, true, false, false, false, 1, 0, 0, 3, some ⟨none, UV_WRITABLE⟩⟩
  | 4 => ⟨0, 1, 0, 3, 0, false, true, false, false, 1, 0, 0, 3, some ⟨none, UV_WRITABLE⟩⟩
  | 5 => ⟨0, 1, 0, 3, 0, false, true, false, false, 1, 0, 0, 3, none⟩
  | 6 => ⟨0, 0, 0, 3, 0, false, true, false, true, 0, 0, 0, 3, none⟩
  | _ + 7 => ⟨0, 0, 0, 3, 0, false, true, true, false, 0, 0, 1, 3, none⟩

def closeLabels : ℕ → Label
  | 0 => .start UV_READABLE
  | 1 => .start (UV_READABLE ||| UV_WRITABLE)
  | 2 => .process .two (.success 1 AFD_POLL_SEND)
  | 3 => .close
  | 4 => .ret
  | 5 => .process .one (.error WSAEINTR)
  | 6 => .endgame
  | _ + 7 => .other

def closeRun : ((system false).restrict (Orderly false)).InfRun where
  state := closeStates
  label := closeLabels
  init := ⟨0, 0, rfl⟩
  step n := by
    rcases Nat.lt_or_ge n 7 with hn | hn
    · interval_cases n
      · exact ⟨fun h => Bool.noConfusion h, ⟨rfl, by decide⟩, rfl⟩
      · exact ⟨fun h => Bool.noConfusion h, ⟨rfl, by decide⟩, rfl⟩
      · exact ⟨trivial, ⟨rfl, one_pos⟩, rfl⟩
      · exact ⟨trivial, rfl, rfl⟩
      · exact ⟨trivial, Option.some_ne_none _, rfl⟩
      · exact ⟨.inr ⟨rfl, rfl⟩, ⟨rfl, one_pos⟩, rfl⟩
      · exact ⟨trivial, ⟨rfl, rfl⟩, rfl⟩
    · obtain ⟨k, rfl⟩ := Nat.exists_eq_add_of_le' hn
      exact ⟨trivial, trivial, rfl⟩

theorem closeRun_fair : closeRun.Fair Label.thread Active := by
  intro p n ha
  have hlate (hn : 7 ≤ n) : False := by
    obtain ⟨k, rfl⟩ := Nat.exists_eq_add_of_le' hn
    cases p with
    | loop => exact ha.elim (fun h => h rfl) (fun h => Bool.noConfusion h)
    | request req => cases req <;> exact Nat.lt_irrefl 0 ha
    | elsewhere => exact ha
  rcases Nat.lt_or_ge n 7 with hn | hn
  · cases p with
    | loop => exact ⟨6, by omega, rfl⟩
    | request req =>
      cases req with
      | one =>
        rcases Nat.lt_or_ge n 6 with hn | hn
        · exact ⟨5, by omega, rfl⟩
        · interval_cases n
          exact absurd ha (Nat.lt_irrefl 0)
      | two =>
        rcases Nat.lt_or_ge n 3 with hn | hn
        · exact ⟨2, by omega, rfl⟩
        · interval_cases n <;> exact absurd ha (Nat.lt_irrefl 0)
    | elsewhere => exact ha.elim
  · exact (hlate hn).elim

theorem poll_requests_close : (closeRun.state 2).active = true ∧ ∃ m, 4 ≤ m ∧ (closeRun.state m).closeCbs = 1 := by
  obtain ⟨hsafe, hlive⟩ := poll_requests false
  exact ⟨((hsafe _ (closeRun.reachable 2)).2.2.1 rfl).2 (by decide), hlive closeRun closeRun_fair 4 rfl⟩

end Libuv.L5.PollReqs
