import Mathlib.Tactic
import Libuv.Core.Fairness

/-!
# Signal watchers on Windows (`win/signal.c`)

The console control thread runs `uv__signal_dispatch` for a signal and posts `signal_req` of every watcher
of it; the loop thread of the watcher takes the completion off its port and runs
`uv__process_signal_req` (`libuv/src/win/signal.c`). Dispatching holds `uv__signal_lock` and is one
step. So is each call of the loop thread, but `uv__process_signal_req` is several: taking the pending signal, the
comparison, the callback, the one-shot stop, and the end that looks whether the handle is closing.

Any number of handles belong to any number of loops; each loop has one thread, which runs callbacks and
other code of the user between its steps. `inTree` says that `uv__signal_tree` holds the
handle; `posted` counts the completions of its `signal_req` that were posted and not yet taken. An
operation whose assertion fails is `none`.

* `signal_delivery`: such runs fail no assertion, call the callback for every dispatch to a watcher
  that stays started, and close every handle that is closing.
* `pending_unposted`, `endgame_overtakes`: what happens in others.
-/
namespace Libuv.L5.Signal

/-! ## State -/

/-- The fields of a `uv_signal_t`, its place in the tree and its completions. -/
structure Handle where
  pendingSignum : ℕ
  signum : ℕ
  oneShot : Bool
  oneShotDispatched : Bool
  closing : Bool
  closed : Bool
  endgameQueued : Bool
  inTree : Bool
  posted : ℕ
deriving DecidableEq

/-- Where `uv__process_signal_req` is. -/
inductive Stage
  /-- behind the exchange, with `dispatched_signum` -/
  | exchanged (dispatchedSignum : ℕ)
  | callback
  | oneShot
  | finish
deriving DecidableEq

/-- `pc` is the request a loop thread is processing, if any. -/
structure State (H Λ : Type*) where
  handles : H → Handle
  pc : Λ → Option (H × Stage)

/-- `NSIG`
mirrors libuv/include/uv/win.h:93-103 -/
def nsig : ℕ := 29

/-! ## Operations -/

/-- mirrors win/signal.c:147-157 -/
def signalInit : Handle := ⟨0, 0, false, false, false, false, false, false, 0⟩

namespace Handle
variable (h : Handle)

/-- The body of the loop in `uv__signal_dispatch`.
mirrors win/signal.c:95-107 -/
def dispatch (signum : ℕ) : Handle :=
  let previous := h.pendingSignum
  let h := { h with pendingSignum := signum }
  if h.oneShotDispatched then h
  else
    let h := if previous = 0 then { h with posted := h.posted + 1 } else h
    if h.oneShot then { h with oneShotDispatched := true } else h

/-- mirrors win/signal.c:160-178 -/
def stop : Option Handle :=
  if h.signum = 0 then some h
  else if h.inTree then some { h with inTree := false, signum := 0 }
  else none

/-- `uv__signal_start`; an invalid signal is `UV_EINVAL`.
mirrors win/signal.c:193-231 -/
def start (signum : ℕ) (oneshot : Bool) : Option Handle :=
  if signum = 0 ∨ nsig ≤ signum then some h
  else if signum = h.signum then some h
  else h.stop.map fun h => { h with signum := signum, oneShot := h.oneShot || oneshot, inTree := true }

/-- `uv__want_endgame` -/
def wantEndgame : Handle := { h with endgameQueued := true }

/-- `uv__signal_close`
mirrors win/signal.c:262-269 -/
def close : Option Handle :=
  h.stop.map fun h =>
    let h := { h with closing := true }
    if h.pendingSignum = 0 then h.wantEndgame else h

/-- `uv__process_signal_req` takes the pending signal.
mirrors win/signal.c:241-243 -/
def exchange : Option (ℕ × Handle) :=
  if h.pendingSignum = 0 then none else some (h.pendingSignum, { h with pendingSignum := 0, posted := h.posted - 1 })

/-- mirrors win/signal.c:251-252 -/
def oneShotStop : Option Handle := if h.oneShot then h.stop else some h

/-- mirrors win/signal.c:254-258 -/
def finish : Option Handle :=
  if h.closing then if h.signum = 0 then some h.wantEndgame else none
  else some h

/-- `uv__process_endgames` takes the handle off and calls `uv__signal_endgame`.
mirrors win/signal.c:272-282 -/
def endgame : Option Handle :=
  if h.closing && !h.closed && h.signum == 0 && h.pendingSignum == 0 then some { h with endgameQueued := false, closed := true }
  else none

end Handle

/-! ## The system -/

inductive Label (H : Type*)
  | dispatch (signum : ℕ)
  | start (h : H) (signum : ℕ) (oneshot : Bool)
  | stop (h : H)
  | close (h : H)
  | exchange (h : H)
  | callback (h : H)
  /-- the pending signal is not the one watched for -/
  | skip (h : H)
  | ret (h : H)
  | oneShot (h : H)
  | finish (h : H)
  | endgame (h : H)

/-- The request of a handle that a step of the loop thread belongs to. -/
def Label.thread {H : Type*} : Label H → Option H
  | .exchange h | .callback h | .skip h | .ret h | .oneShot h | .finish h | .endgame h => some h
  | _ => none

variable {H Λ : Type*} [DecidableEq H] [DecidableEq Λ] (loopOf : H → Λ)

def InUserCode : Option (H × Stage) → Prop
  | none => True
  | some (_, st) => st = .callback

/-- What may happen next: a loop thread goes through `uv__process_signal_req`, and between requests and in callbacks it
does what the user wants, who leaves closed handles alone. -/
def enabled (s : State H Λ) : Label H → Prop
  | .dispatch _ => True
  | .start h _ _ | .close h => InUserCode (s.pc (loopOf h)) ∧ (s.handles h).closing = false
  | .stop h => InUserCode (s.pc (loopOf h)) ∧ (s.handles h).closed = false
  | .exchange h => s.pc (loopOf h) = none ∧ 0 < (s.handles h).posted
  | .callback h => s.pc (loopOf h) = some (h, .exchanged (s.handles h).signum)
  | .skip h => ∃ d, s.pc (loopOf h) = some (h, .exchanged d) ∧ d ≠ (s.handles h).signum
  | .ret h => s.pc (loopOf h) = some (h, .callback)
  | .oneShot h => s.pc (loopOf h) = some (h, .oneShot)
  | .finish h => s.pc (loopOf h) = some (h, .finish)
  | .endgame h => s.pc (loopOf h) = none ∧ (s.handles h).endgameQueued = true

namespace State
variable (s : State H Λ)

def set (h : H) (g : Handle) : State H Λ := { s with handles := Function.update s.handles h g }

def goto (h : H) (st : Option Stage) : State H Λ := { s with pc := Function.update s.pc (loopOf h) (st.map (h, ·)) }

end State

def step (s : State H Λ) : Label H → Option (State H Λ)
  | .dispatch n => some { s with handles := fun h =>
      if (s.handles h).inTree ∧ (s.handles h).signum = n then (s.handles h).dispatch n else s.handles h }
  | .start h n o => ((s.handles h).start n o).map (s.set h)
  | .stop h => (s.handles h).stop.map (s.set h)
  | .close h => (s.handles h).close.map (s.set h)
  | .exchange h => (s.handles h).exchange.map fun r => (s.set h r.2).goto loopOf h (some (.exchanged r.1))
  | .callback h => some (s.goto loopOf h (some .callback))
  | .skip h => some (s.goto loopOf h (some .oneShot))
  | .ret h => some (s.goto loopOf h (some .oneShot))
  | .oneShot h => (s.handles h).oneShotStop.map fun g => (s.set h g).goto loopOf h (some .finish)
  | .finish h => (s.handles h).finish.map fun g => (s.set h g).goto loopOf h none
  | .endgame h => (s.handles h).endgame.map (s.set h)

def system : LTS (State H Λ) (Label H) where
  init s := (∀ h, s.handles h = signalInit) ∧ ∀ l, s.pc l = none
  step s l t := enabled loopOf s l ∧ step loopOf s l = some t

/-- No dispatch finds a watcher of its signal that was dispatched once for all and has nothing pending, and
no request ends on a handle that is closing while another one is pending. -/
def Orderly (s : State H Λ) : Label H → Prop
  | .dispatch n => ∀ h, (s.handles h).inTree = true → (s.handles h).signum = n →
      (s.handles h).oneShotDispatched = true → (s.handles h).pendingSignum ≠ 0
  | .finish h => (s.handles h).closing = true → (s.handles h).pendingSignum = 0
  | _ => True

/-! ## One handle -/

/-- Where the loop thread is in the request of a handle. -/
def State.place (s : State H Λ) (h : H) : Option Stage :=
  match s.pc (loopOf h) with
  | some (g, st) => if g = h then some st else none
  | none => none

structure Good (g : Handle) (p : Option Stage) : Prop where
  tree : g.inTree = true ↔ g.signum ≠ 0
  stopped : g.closing = true → g.signum = 0
  posted : g.posted = if g.pendingSignum = 0 then 0 else 1
  path : g.closing = true → g.closed = false → g.endgameQueued = true ∨ g.posted ≠ 0 ∨ p ≠ none
  queued : g.endgameQueued = true → g.closing = true ∧ g.closed = false ∧ g.pendingSignum = 0
  closed : g.closed = true → g.closing = true ∧ g.pendingSignum = 0 ∧ p = none

namespace Good
variable {g g' : Handle} {p q : Option Stage} {n : ℕ}

theorem dispatch (h : Good g p) (hn : g.signum = n) (ht : g.inTree = true)
    (hc : g.oneShotDispatched = true → g.pendingSignum ≠ 0) : Good (g.dispatch n) p := by
  have hn0 : n ≠ 0 := hn ▸ h.tree.1 ht
  have hcl : g.closing = false := by
    by_contra hc
    exact h.tree.1 ht (h.stopped (by simpa using hc))
  have hq : g.endgameQueued = false := by
    by_contra hq
    have := (h.queued (by simpa using hq)).1
    simp [hcl] at this
  have hcd : g.closed = false := by
    by_contra hcd
    have := (h.closed (by simpa using hcd)).1
    simp [hcl] at this
  have hp := h.posted
  refine ⟨?_, ?_, ?_, ?_, ?_, ?_⟩ <;> unfold Handle.dispatch <;> dsimp only <;> split_ifs <;> simp_all

theorem stop (h : Good g p) : g.stop = some { g with inTree := false, signum := 0 } := by
  unfold Handle.stop
  split
  · next h0 =>
    have ht : g.inTree = false := by
      by_contra ht
      exact h.tree.1 (by simpa using ht) h0
    cases g
    simp_all
  · next h0 => rw [if_pos (h.tree.2 h0)]

theorem stopped' (h : Good g p) : Good { g with inTree := false, signum := 0 } p :=
  ⟨by simp, fun _ => rfl, h.posted, h.path, h.queued, h.closed⟩

theorem start (h : Good g p) (hc : g.closing = false) {o : Bool} (hs : g.start n o = some g') : Good g' p := by
  unfold Handle.start at hs
  split at hs
  · cases hs
    exact h
  · split at hs
    · cases hs
      exact h
    · next hn _ =>
      rw [h.stop] at hs
      cases hs
      have hn0 : n ≠ 0 := fun e => hn (.inl e)
      refine ⟨by simp [hn0], fun hcl => ?_, h.posted, h.path, h.queued, h.closed⟩
      rw [hc] at hcl
      cases hcl

theorem close (h : Good g p) (hc : g.closing = false) (hs : g.close = some g') : Good g' p := by
  have hcd : g.closed = false := by
    by_contra hcd
    have := (h.closed (by simpa using hcd)).1
    simp [hc] at this
  have hp := h.posted
  unfold Handle.close at hs
  rw [h.stop] at hs
  simp only [Option.map_some, Option.some_inj] at hs
  split at hs
  · next h0 =>
    subst hs
    exact ⟨by simp [Handle.wantEndgame], fun _ => rfl, hp, fun _ _ => .inl rfl, fun _ => ⟨rfl, hcd, h0⟩,
      fun hh => by simp [Handle.wantEndgame, hcd] at hh⟩
  · next h0 =>
    subst hs
    refine ⟨by simp, fun _ => rfl, hp, fun _ _ => .inr (.inl ?_), fun hq => ?_, fun hh => ?_⟩
    · rw [hp, if_neg h0]
      exact one_ne_zero
    · exact ⟨rfl, hcd, (h.queued hq).2.2⟩
    · simp [hcd] at hh

theorem exchange (h : Good g p) (h0 : 0 < g.posted) : g.pendingSignum ≠ 0 ∧
    g.exchange = some (g.pendingSignum, { g with pendingSignum := 0, posted := 0 }) ∧
    ∀ st, Good { g with pendingSignum := 0, posted := 0 } (some st) := by
  have hp := h.posted
  have hne : g.pendingSignum ≠ 0 := by
    intro e
    rw [if_pos e] at hp
    omega
  refine ⟨hne, by simp [Handle.exchange, hne, hp], fun st => { h with
    posted := rfl
    path := fun _ _ => .inr (.inr (by simp))
    queued := fun hq => ?_
    closed := fun hcd => ?_ }⟩
  · exact absurd (h.queued hq).2.2 hne
  · exact absurd (h.closed hcd).2.1 hne

theorem goto {st st' : Stage} (h : Good g (some st)) : Good g (some st') := by
  refine ⟨h.tree, h.stopped, h.posted, fun _ _ => .inr (.inr (by simp)), h.queued, fun hcd => ?_⟩
  have := (h.closed hcd).2.2
  cases this

theorem oneShotStop (h : Good g p) : ∃ g', g.oneShotStop = some g' ∧ Good g' p := by
  unfold Handle.oneShotStop
  split
  · exact ⟨_, h.stop, h.stopped'⟩
  · exact ⟨g, rfl, h⟩

theorem finish {st : Stage} (h : Good g (some st)) (hc : g.closing = true → g.pendingSignum = 0) :
    ∃ g', g.finish = some g' ∧ Good g' none := by
  have hcd : g.closed = false := by
    by_contra hcd
    have := (h.closed (by simpa using hcd)).2.2
    cases this
  unfold Handle.finish
  split
  · next hcl =>
    rw [if_pos (h.stopped hcl)]
    exact ⟨_, rfl, h.tree, h.stopped, h.posted, fun _ _ => .inl rfl, fun _ => ⟨hcl, hcd, hc hcl⟩,
      fun hh => by simp [Handle.wantEndgame, hcd] at hh⟩
  · next hcl => exact ⟨g, rfl, h.tree, h.stopped, h.posted, fun hh => absurd hh hcl, h.queued, fun hh => by simp [hcd] at hh⟩

theorem endgame (h : Good g none) (hq : g.endgameQueued = true) :
    ∃ g', g.endgame = some g' ∧ Good g' none ∧ g'.closed = true := by
  obtain ⟨hcl, hcd, h0⟩ := h.queued hq
  refine ⟨{ g with endgameQueued := false, closed := true }, by simp [Handle.endgame, hcl, hcd, h.stopped hcl, h0],
    ⟨h.tree, h.stopped, h.posted, fun _ hh => ?_, fun hh => ?_, fun _ => ⟨hcl, h0, rfl⟩⟩, rfl⟩
  · cases hh
  · cases hh

end Good

/-! ## All handles -/

def Inv (s : State H Λ) : Prop := ∀ h, Good (s.handles h) (s.place loopOf h)

variable {loopOf} {s t : State H Λ}

section
omit [DecidableEq Λ]

@[simp] theorem set_handles_self (h : H) (g : Handle) : (s.set h g).handles h = g := Function.update_self ..

theorem set_handles_of_ne {h k : H} (g : Handle) (hk : k ≠ h) : (s.set h g).handles k = s.handles k :=
  Function.update_of_ne hk ..

@[simp] theorem set_place (h k : H) (g : Handle) : (s.set h g).place loopOf k = s.place loopOf k := rfl

end

omit [DecidableEq H] in
@[simp] theorem goto_handles (h : H) (st : Option Stage) : (s.goto loopOf h st).handles = s.handles := rfl

@[simp] theorem goto_place_self (h : H) (st : Option Stage) : (s.goto loopOf h st).place loopOf h = st := by
  cases st <;> simp [State.place, State.goto]

variable {h : H} {g : Handle} {l : Label H} {n : ℕ}

theorem goto_place_of_ne {k : H} (st : Option Stage) (hk : k ≠ h) (hp : ∀ x ∈ s.pc (loopOf h), x.1 = h) :
    (s.goto loopOf h st).place loopOf k = s.place loopOf k := by
  by_cases hl : loopOf k = loopOf h
  · have hnone : ∀ x ∈ s.pc (loopOf h), x.1 ≠ k := fun x hx e => hk (e.symm.trans (hp x hx))
    cases hpc : s.pc (loopOf h) with
    | none => cases st <;> simp [State.place, State.goto, hl, hpc, hk.symm]
    | some x =>
      have := hnone x hpc
      cases st <;> simp [State.place, State.goto, hl, hpc, hk.symm, this]
  · simp [State.place, State.goto, hl]

omit [DecidableEq Λ] in
theorem place_of_pc {st : Stage} (hp : s.pc (loopOf h) = some (h, st)) : s.place loopOf h = some st := by
  simp [State.place, hp]

omit [DecidableEq Λ] in
theorem place_of_idle (hp : s.pc (loopOf h) = none) : s.place loopOf h = none := by
  simp [State.place, hp]

omit [DecidableEq Λ] in
theorem Inv.set (hi : Inv loopOf s) (hg : Good g (s.place loopOf h)) : Inv loopOf (s.set h g) := by
  intro k
  by_cases hk : k = h
  · subst hk
    simpa using hg
  · rw [set_handles_of_ne g hk]
    exact hi k

theorem Inv.goto (hi : Inv loopOf s) {p : Option Stage} (hp : ∀ x ∈ s.pc (loopOf h), x.1 = h)
    (hg : Good g p) : Inv loopOf ((s.set h g).goto loopOf h p) := by
  intro k
  by_cases hk : k = h
  · subst hk
    simpa using hg
  · rw [goto_handles, set_handles_of_ne g hk, goto_place_of_ne p hk (by exact hp)]
    exact hi k

theorem Inv.goto_only (hi : Inv loopOf s) {st st' : Stage} (hp : s.pc (loopOf h) = some (h, st)) :
    Inv loopOf (s.goto loopOf h (some st')) := by
  have hg := hi h
  rw [place_of_pc hp] at hg
  have := hi.goto (h := h) (p := some st') (by simp [hp]) hg.goto
  rwa [State.set, Function.update_eq_self] at this

theorem step_spec (hi : Inv loopOf s) (he : enabled loopOf s l) (hc : Orderly s l) :
    ∃ t, step loopOf s l = some t ∧ Inv loopOf t := by
  cases l with
  | dispatch n =>
    refine ⟨_, rfl, fun h => ?_⟩
    change Good (if _ then _ else _) (s.place loopOf h)
    split
    · next hh => exact (hi h).dispatch hh.2 hh.1 (hc h hh.1 hh.2)
    · exact hi h
  | start h n o =>
    have hst := (hi h).stop
    obtain ⟨g, hg⟩ : ∃ g, (s.handles h).start n o = some g := by
      unfold Handle.start
      rw [hst]
      split_ifs <;> exact ⟨_, rfl⟩
    exact ⟨s.set h g, by simp [step, hg], hi.set ((hi h).start he.2 hg)⟩
  | stop h => exact ⟨_, by rw [step, (hi h).stop]; rfl, hi.set (hi h).stopped'⟩
  | close h =>
    obtain ⟨g, hg⟩ : ∃ g, (s.handles h).close = some g := by
      unfold Handle.close
      rw [(hi h).stop]
      exact ⟨_, rfl⟩
    exact ⟨s.set h g, by simp [step, hg], hi.set ((hi h).close he.2 hg)⟩
  | exchange h =>
    obtain ⟨-, hx, hg⟩ := (hi h).exchange he.2
    exact ⟨_, by rw [step, hx]; rfl, hi.goto (by simp [he.1]) (hg _)⟩
  | callback h => exact ⟨_, rfl, hi.goto_only he⟩
  | skip h =>
    obtain ⟨d, hp, -⟩ := he
    exact ⟨_, rfl, hi.goto_only hp⟩
  | ret h => exact ⟨_, rfl, hi.goto_only he⟩
  | oneShot h =>
    have hg := hi h
    rw [place_of_pc he] at hg
    obtain ⟨g', hs, hg'⟩ := hg.oneShotStop
    exact ⟨_, by rw [step, hs]; rfl, hi.goto (by simp [show s.pc (loopOf h) = _ from he]) hg'.goto⟩
  | finish h =>
    have hg := hi h
    rw [place_of_pc he] at hg
    obtain ⟨g', hs, hg'⟩ := hg.finish hc
    exact ⟨_, by rw [step, hs]; rfl, hi.goto (by simp [show s.pc (loopOf h) = _ from he]) hg'⟩
  | endgame h =>
    have hg := hi h
    rw [place_of_idle he.1] at hg
    obtain ⟨g', hs, hg', -⟩ := hg.endgame he.2
    exact ⟨s.set h g', by simp [step, hs], hi.set (by rwa [place_of_idle he.1])⟩

theorem inv_inductive : ((system loopOf).restrict Orderly).Inductive (Inv loopOf) where
  init s h k := by
    rw [h.1 k]
    exact ⟨by decide, by decide, by decide, by simp [signalInit], by decide, by simp [signalInit]⟩
  step s l t hi hst := by
    obtain ⟨u, hu, hiu⟩ := step_spec hi hst.2.1 hst.1
    cases hu.symm.trans hst.2.2
    exact hiu

/-! ## Fair runs -/

def Label.handle : Label H → Option H
  | .dispatch _ => none
  | .start h _ _ | .stop h | .close h | .exchange h | .callback h | .skip h | .ret h | .oneShot h | .finish h | .endgame h => some h

omit [DecidableEq H] in
theorem Label.handle_of_thread (hl : l.thread = some h) : l.handle = some h := by
  cases l <;> first | exact hl | cases hl

variable (loopOf) in
/-- The handle has a request posted or in progress, or its endgame is queued. -/
def Active : Option H → State H Λ → Prop
  | none, _ => False
  | some h, s => (s.handles h).posted ≠ 0 ∨ s.place loopOf h ≠ none ∨ (s.handles h).endgameQueued = true

omit [DecidableEq H] [DecidableEq Λ] in
theorem mine (he : enabled loopOf s l) (hl : l.thread = some h) : ∀ x ∈ s.pc (loopOf h), x.1 = h := by
  cases l with
  | dispatch | start | stop | close => cases hl
  | exchange | endgame =>
    cases hl
    simp [he.1]
  | skip =>
    cases hl
    obtain ⟨d, hp, -⟩ := he
    simp [hp]
  | callback | ret | oneShot | finish =>
    cases hl
    simp [show s.pc (loopOf h) = _ from he]

theorem step_frame {k : H} (he : enabled loopOf s l) (hs : step loopOf s l = some t) (hl : l.handle = some k)
    (hk : h ≠ k) : t.handles h = s.handles h ∧ t.place loopOf h = s.place loopOf h := by
  have hset (g : Handle) : (s.set k g).handles h = s.handles h := set_handles_of_ne g hk
  have hgoto (u : State H Λ) (hu : u.pc = s.pc) (st : Option Stage) (hm : ∀ x ∈ s.pc (loopOf k), x.1 = k) :
      (u.goto loopOf k st).place loopOf h = s.place loopOf h := by
    rw [goto_place_of_ne st hk (by rwa [hu]), State.place, hu, State.place]
  cases l with
  | dispatch => cases hl
  | start | stop | close | endgame =>
    cases hl
    obtain ⟨g, -, rfl⟩ := Option.map_eq_some_iff.1 hs
    exact ⟨hset g, rfl⟩
  | exchange | oneShot | finish =>
    cases hl
    obtain ⟨g, -, rfl⟩ := Option.map_eq_some_iff.1 hs
    exact ⟨hset _, hgoto _ rfl _ (mine he rfl)⟩
  | callback | skip | ret =>
    cases hl
    cases hs
    exact ⟨rfl, hgoto _ rfl _ (mine he rfl)⟩

def Handle.Started (g : Handle) (n : ℕ) : Prop := g.inTree = true ∧ g.signum = n

theorem step_dispatch (hs : step loopOf s (.dispatch n) = some t) (h : H) : t.place loopOf h = s.place loopOf h ∧
    ((s.handles h).Started n → t.handles h = (s.handles h).dispatch n) ∧
    (¬ (s.handles h).Started n → t.handles h = s.handles h) := by
  cases hs
  exact ⟨rfl, fun hh => if_pos hh, fun hh => if_neg hh⟩

theorem step_other (he : enabled loopOf s l) (hs : step loopOf s l = some t) (hl : l.handle ≠ some h) :
    t.place loopOf h = s.place loopOf h ∧ (t.handles h = s.handles h ∨
      ∃ n, (s.handles h).Started n ∧ t.handles h = (s.handles h).dispatch n) := by
  cases hk : l.handle with
  | none =>
    cases l with
    | dispatch n =>
      obtain ⟨e2, e1, e0⟩ := step_dispatch hs h
      by_cases hh : (s.handles h).Started n
      · exact ⟨e2, .inr ⟨n, hh, e1 hh⟩⟩
      · exact ⟨e2, .inl (e0 hh)⟩
    | _ => cases hk
  | some k =>
    obtain ⟨e1, e2⟩ := step_frame he hs hk (fun e => hl (hk.trans (congrArg _ e.symm)))
    exact ⟨e2, .inl e1⟩

def Stage.left : Option Stage → ℕ
  | none => 0
  | some .finish => 1
  | some .oneShot => 2
  | some .callback => 3
  | some (.exchanged _) => 4

variable (loopOf) in
/-- What a handle that is closing has to go through. -/
def State.left (s : State H Λ) (h : H) : ℕ := 5 * (s.handles h).posted + Stage.left (s.place loopOf h)

theorem closing_own (hi : Inv loopOf s) (hc : (s.handles h).closing = true)
    (hcd : (s.handles h).closed = false) (he : enabled loopOf s l) (hs : step loopOf s l = some t) (hl : l.handle = some h) :
    (t.handles h).closed = true ∨ ((t.handles h).closing = true ∧ (t.handles h).closed = false) ∧
      (t.left loopOf h < s.left loopOf h ∨ t.left loopOf h = s.left loopOf h ∧ l.thread ≠ some h) := by
  have h0 := (hi h).stopped hc
  cases l with
  | dispatch => cases hl
  | start | close =>
    cases hl
    rw [he.2] at hc
    cases hc
  | stop =>
    cases hl
    rw [step, Handle.stop, if_pos h0] at hs
    cases hs
    have e := set_handles_self (s := s) h (s.handles h)
    refine .inr ⟨by rw [e]; exact ⟨hc, hcd⟩, .inr ⟨?_, by simp [Label.thread]⟩⟩
    rw [State.left, e]
    rfl
  | exchange =>
    cases hl
    obtain ⟨-, hx, -⟩ := (hi h).exchange he.2
    rw [step, hx] at hs
    cases hs
    refine .inr ⟨⟨by simpa using hc, by simpa using hcd⟩, .inl ?_⟩
    have hp := he.2
    rw [State.left, State.left, goto_place_self, goto_handles, set_handles_self]
    dsimp only [Stage.left]
    omega
  | callback | ret =>
    cases hl
    cases hs
    refine .inr ⟨⟨hc, hcd⟩, .inl ?_⟩
    rw [State.left, State.left, goto_place_self, goto_handles, place_of_pc he]
    dsimp only [Stage.left]
    omega
  | skip =>
    cases hl
    obtain ⟨d, hp, -⟩ := he
    cases hs
    refine .inr ⟨⟨hc, hcd⟩, .inl ?_⟩
    rw [State.left, State.left, goto_place_self, goto_handles, place_of_pc hp]
    dsimp only [Stage.left]
    omega
  | oneShot =>
    cases hl
    have hst : (s.handles h).oneShotStop = some (s.handles h) := by
      rw [Handle.oneShotStop, Handle.stop, if_pos h0, ite_self]
    rw [step, hst] at hs
    cases hs
    refine .inr ⟨⟨by simpa using hc, by simpa using hcd⟩, .inl ?_⟩
    rw [State.left, State.left, goto_place_self, goto_handles, set_handles_self, place_of_pc he]
    dsimp only [Stage.left]
    omega
  | finish =>
    cases hl
    rw [step, Handle.finish, if_pos hc, if_pos h0] at hs
    cases hs
    refine .inr ⟨⟨by simpa [Handle.wantEndgame] using hc, by simpa [Handle.wantEndgame] using hcd⟩, .inl ?_⟩
    rw [State.left, State.left, goto_place_self, goto_handles, set_handles_self, place_of_pc he]
    dsimp only [Stage.left, Handle.wantEndgame]
    omega
  | endgame =>
    cases hl
    have hg := hi h
    rw [place_of_idle he.1] at hg
    obtain ⟨g, hg, -, hcl⟩ := hg.endgame he.2
    rw [step, hg] at hs
    cases hs
    exact .inl (by simpa using hcl)

theorem closing_step (hi : Inv loopOf s) (hc : (s.handles h).closing = true)
    (hcd : (s.handles h).closed = false) (he : enabled loopOf s l) (hs : step loopOf s l = some t) :
    (t.handles h).closed = true ∨ ((t.handles h).closing = true ∧ (t.handles h).closed = false) ∧
      (t.left loopOf h < s.left loopOf h ∨ t.left loopOf h = s.left loopOf h ∧ l.thread ≠ some h) := by
  by_cases hl : l.handle = some h
  · exact closing_own hi hc hcd he hs hl
  have ht : l.thread ≠ some h := fun e => hl (Label.handle_of_thread e)
  obtain ⟨e2, e1 | ⟨n, hst, -⟩⟩ := step_other he hs hl
  · rw [State.left, e1, e2]
    exact .inr ⟨⟨hc, hcd⟩, .inr ⟨rfl, ht⟩⟩
  · exact absurd ((hi h).stopped hc) ((hi h).tree.1 hst.1)

/-- **A handle that is closing is closed.** -/
theorem closes (ρ : ((system loopOf).restrict Orderly).InfRun) (hf : ρ.Fair Label.thread (Active loopOf))
    (hc : ((ρ.state n).handles h).closing = true) : ∃ m, n ≤ m ∧ ((ρ.state m).handles h).closed = true := by
  by_cases hcd : ((ρ.state n).handles h).closed = true
  · exact ⟨n, le_rfl, hcd⟩
  obtain ⟨m, hm, hq⟩ := ρ.leads_to_by (fun s => (s.handles h).closing = true ∧ (s.handles h).closed = false)
    (fun s => s.left loopOf h) (fun _ _ t => (t.handles h).closed = true) (some h) hf
    (fun s hr hp => by
      rcases (inv_inductive.reachable hr h).path hp.1 hp.2 with hq | h0 | hst
      · exact .inr (.inr hq)
      · exact .inl h0
      · exact .inr (.inl hst))
    (fun s l t hr hp hst => closing_step (inv_inductive.reachable hr) hp.1 hp.2 hst.2.1 hst.2.2) n ⟨hc, by simpa using hcd⟩
  exact ⟨m + 1, by omega, hq⟩

/-! ## Callbacks -/

theorem dispatch_started (hg : g.Started n) :
    (g.dispatch n).Started n ∧ (g.dispatch n).pendingSignum = n := by
  obtain ⟨h1, h2⟩ := hg
  unfold Handle.dispatch Handle.Started
  dsimp only
  split_ifs <;> exact ⟨⟨h1, h2⟩, rfl⟩

variable (loopOf) in
/-- The signal is on its way to the callback of the handle. -/
def State.Coming (s : State H Λ) (h : H) (n : ℕ) : Prop :=
  (s.handles h).pendingSignum = n ∨ s.place loopOf h = some (.exchanged n)

variable (loopOf) in
/-- The steps of the request in progress before the one that takes the signal; none when it is taken. -/
def State.ahead (s : State H Λ) (h : H) (n : ℕ) : ℕ :=
  if s.place loopOf h = some (.exchanged n) then 0 else 1 + Stage.left (s.place loopOf h)

section
omit [DecidableEq Λ]

theorem ahead_of_place {h : H} {n : ℕ} (h1 : s.place loopOf h ≠ some (.exchanged n)) :
    s.ahead loopOf h n = 1 + Stage.left (s.place loopOf h) := if_neg h1

theorem coming_goto {h : H} {n : ℕ} {q : Option Stage} {p : Stage} (hp : s.place loopOf h = some p) (hne : p ≠ .exchanged n)
    (hcm : s.Coming loopOf h n) (hlt : Stage.left q < Stage.left (some p))
    (e1 : (t.handles h).pendingSignum = (s.handles h).pendingSignum) (e2 : t.place loopOf h = q) :
    t.Coming loopOf h n ∧ t.ahead loopOf h n < s.ahead loopOf h n := by
  have hp' : s.place loopOf h ≠ some (.exchanged n) := by
    rw [hp]
    simpa using hne
  refine ⟨.inl (e1.trans (hcm.resolve_right hp')), ?_⟩
  rw [ahead_of_place hp', State.ahead, e2, hp]
  split <;> omega

theorem coming_stay {h : H} {n : ℕ} (hst : (s.handles h).Started n) (hcm : s.Coming loopOf h n)
    (e1 : t.handles h = s.handles h) (e2 : t.place loopOf h = s.place loopOf h) :
    ((t.handles h).Started n ∧ t.Coming loopOf h n) ∧ t.ahead loopOf h n = s.ahead loopOf h n := by
  rw [State.Coming, State.ahead, e1, e2]
  exact ⟨⟨hst, hcm⟩, rfl⟩

end

theorem coming_own (hi : Inv loopOf s) {l : Label H} {h : H} {n : ℕ} (hst : (s.handles h).Started n)
    (hcm : s.Coming loopOf h n) (he : enabled loopOf s l) (hs : step loopOf s l = some t) (hl : l.handle = some h) :
    (l = .callback h ∨ ¬ (t.handles h).Started n) ∨ ((t.handles h).Started n ∧ t.Coming loopOf h n) ∧
      (t.ahead loopOf h n < s.ahead loopOf h n ∨ t.ahead loopOf h n = s.ahead loopOf h n ∧ l.thread ≠ some h) := by
  have hn0 : n ≠ 0 := hst.2 ▸ (hi h).tree.1 hst.1
  have hcl : (s.handles h).closing ≠ true := fun hc => hn0 (hst.2.symm.trans ((hi h).stopped hc))
  have hsame (e1 : t.handles h = s.handles h) (e2 : t.place loopOf h = s.place loopOf h) (ht : l.thread ≠ some h) :
      (l = .callback h ∨ ¬ (t.handles h).Started n) ∨ ((t.handles h).Started n ∧ t.Coming loopOf h n) ∧
        (t.ahead loopOf h n < s.ahead loopOf h n ∨ t.ahead loopOf h n = s.ahead loopOf h n ∧ l.thread ≠ some h) := by
    obtain ⟨hkeep, heq⟩ := coming_stay hst hcm e1 e2
    exact .inr ⟨hkeep, .inr ⟨heq, ht⟩⟩
  cases l with
  | dispatch => cases hl
  | start _ m o =>
    cases hl
    rw [step, Handle.start] at hs
    split at hs
    · cases hs
      exact hsame (set_handles_self h _) rfl (by simp [Label.thread])
    · split at hs
      · cases hs
        exact hsame (set_handles_self h _) rfl (by simp [Label.thread])
      · next hne =>
        rw [(hi h).stop] at hs
        cases hs
        refine .inl (.inr fun hh => hne ?_)
        rw [set_handles_self] at hh
        exact hh.2.trans hst.2.symm
  | stop =>
    cases hl
    rw [step, (hi h).stop] at hs
    cases hs
    exact .inl (.inr fun hh => by simp [Handle.Started] at hh)
  | close =>
    cases hl
    rw [step, Handle.close, (hi h).stop] at hs
    cases hs
    refine .inl (.inr fun hh => ?_)
    have := hh.1
    rw [set_handles_self] at this
    dsimp only at this
    split at this <;> cases this
  | exchange =>
    cases hl
    have hp : s.place loopOf h ≠ some (.exchanged n) := by
      rw [place_of_idle he.1]
      simp
    obtain ⟨-, hx, -⟩ := (hi h).exchange he.2
    rw [hcm.resolve_right hp] at hx
    rw [step, hx] at hs
    cases hs
    refine .inr ⟨⟨by simpa [Handle.Started] using hst, .inr (goto_place_self h _)⟩, .inl ?_⟩
    rw [ahead_of_place hp, State.ahead, if_pos (goto_place_self h _)]
    omega
  | callback =>
    cases hl
    exact .inl (.inl rfl)
  | skip =>
    cases hl
    obtain ⟨d, hp, hd⟩ := he
    cases hs
    obtain ⟨hc, hlt⟩ := coming_goto (q := some .oneShot) (t := s.goto loopOf h (some .oneShot)) (place_of_pc hp)
      (by simpa [hst.2] using hd) hcm (by decide : 2 < 4) rfl (goto_place_self h _)
    exact .inr ⟨⟨hst, hc⟩, .inl hlt⟩
  | ret =>
    cases hl
    cases hs
    obtain ⟨hc, hlt⟩ := coming_goto (q := some .oneShot) (t := s.goto loopOf h (some .oneShot)) (place_of_pc he)
      (by simp) hcm (by decide : 2 < 3) rfl (goto_place_self h _)
    exact .inr ⟨⟨hst, hc⟩, .inl hlt⟩
  | oneShot =>
    cases hl
    rw [step, Handle.oneShotStop] at hs
    split at hs
    · rw [(hi h).stop] at hs
      cases hs
      exact .inl (.inr fun hh => by simp [Handle.Started] at hh)
    · cases hs
      have e1 := set_handles_self (s := s) h (s.handles h)
      obtain ⟨hc, hlt⟩ := coming_goto (q := some .finish) (t := (s.set h (s.handles h)).goto loopOf h (some .finish))
        (place_of_pc he) (by simp) hcm (by decide : 1 < 2) (congrArg _ e1) (goto_place_self h _)
      exact .inr ⟨⟨by rwa [goto_handles, e1], hc⟩, .inl hlt⟩
  | finish =>
    cases hl
    rw [step, Handle.finish, if_neg hcl] at hs
    cases hs
    have e1 := set_handles_self (s := s) h (s.handles h)
    obtain ⟨hc, hlt⟩ := coming_goto (q := none) (t := (s.set h (s.handles h)).goto loopOf h none)
      (place_of_pc he) (by simp) hcm (by decide : 0 < 1) (congrArg _ e1) (goto_place_self h _)
    exact .inr ⟨⟨by rwa [goto_handles, e1], hc⟩, .inl hlt⟩
  | endgame =>
    cases hl
    exact absurd ((hi h).queued he.2).1 hcl

theorem coming_step (hi : Inv loopOf s) {l : Label H} {h : H} {n : ℕ} (hst : (s.handles h).Started n)
    (hcm : s.Coming loopOf h n) (he : enabled loopOf s l) (hs : step loopOf s l = some t) :
    (l = .callback h ∨ ¬ (t.handles h).Started n) ∨ ((t.handles h).Started n ∧ t.Coming loopOf h n) ∧
      (t.ahead loopOf h n < s.ahead loopOf h n ∨ t.ahead loopOf h n = s.ahead loopOf h n ∧ l.thread ≠ some h) := by
  by_cases hl : l.handle = some h
  · exact coming_own hi hst hcm he hs hl
  have ht : l.thread ≠ some h := fun e => hl (Label.handle_of_thread e)
  obtain ⟨e2, e1 | ⟨m, hm, e1⟩⟩ := step_other he hs hl
  · obtain ⟨hkeep, heq⟩ := coming_stay hst hcm e1 e2
    exact .inr ⟨hkeep, .inr ⟨heq, ht⟩⟩
  · -- the signal is dispatched once more
    obtain rfl : n = m := hst.2.symm.trans hm.2
    obtain ⟨h1, h2⟩ := dispatch_started hst
    refine .inr ⟨⟨e1 ▸ h1, .inl (e1 ▸ h2)⟩, .inr ⟨?_, ht⟩⟩
    rw [State.ahead, State.ahead, e2]

/-- **A dispatch to a watcher that stays started gets its callback.** -/
theorem called_back (ρ : ((system loopOf).restrict Orderly).InfRun) (hf : ρ.Fair Label.thread (Active loopOf)) {h : H}
    {n m : ℕ} (hl : ρ.label m = .dispatch n) (hst : ((ρ.state m).handles h).Started n) :
    ∃ k, m < k ∧ (ρ.label k = .callback h ∨ ¬ ((ρ.state k).handles h).Started n) := by
  have hs := (ρ.step m).2.2
  rw [hl] at hs
  have hd := dispatch_started hst
  have e1 := (step_dispatch hs h).2.1 hst
  obtain ⟨k, hk, hq⟩ := ρ.leads_to_by (fun s => (s.handles h).Started n ∧ s.Coming loopOf h n)
    (fun s => s.ahead loopOf h n) (fun _ l t => l = .callback h ∨ ¬ (t.handles h).Started n) (some h) hf
    (fun s hr hp => by
      have hi := inv_inductive.reachable hr h
      have hn0 : n ≠ 0 := hp.1.2 ▸ hi.tree.1 hp.1.1
      rcases hp.2 with h0 | hpl
      · refine .inl ?_
        rw [hi.posted, if_neg (h0 ▸ hn0)]
        exact one_ne_zero
      · exact .inr (.inl (by simp [hpl])))
    (fun s l t hr hp hst => coming_step (inv_inductive.reachable hr) hp.1 hp.2 hst.2.1 hst.2.2) (m + 1)
    ⟨e1 ▸ hd.1, .inl (e1 ▸ hd.2)⟩
  rcases hq with hq | hq
  · exact ⟨k, by omega, .inl hq⟩
  · exact ⟨k + 1, by omega, .inr hq⟩

/-- **Signal delivery**, over any handles, any loops and any order of `Orderly` steps. A signal is
pending exactly while one completion is posted, and no step fails; in a fair run a handle that is closing is
closed, and a dispatch to a watcher that stays started is followed by its callback. -/
theorem signal_delivery (loopOf : H → Λ) :
    (∀ s, ((system loopOf).restrict Orderly).Reachable s →
      (∀ h, (s.handles h).posted ≤ 1 ∧ ((s.handles h).pendingSignum ≠ 0 ↔ (s.handles h).posted = 1)) ∧
      ∀ l, enabled loopOf s l → Orderly s l → ∃ t, step loopOf s l = some t) ∧
    ∀ ρ : ((system loopOf).restrict Orderly).InfRun, ρ.Fair Label.thread (Active loopOf) →
      (∀ h n, ((ρ.state n).handles h).closing = true → ∃ m, n ≤ m ∧ ((ρ.state m).handles h).closed = true) ∧
      ∀ h n m, ρ.label m = .dispatch n → ((ρ.state m).handles h).Started n →
        ∃ k, m < k ∧ (ρ.label k = .callback h ∨ ¬ ((ρ.state k).handles h).Started n) := by
  refine ⟨fun s hr => ⟨fun h => ?_, fun l he ho => ?_⟩, fun ρ hf => ⟨fun h n hc => closes ρ hf hc,
    fun h n m hl hst => called_back ρ hf hl hst⟩⟩
  · rw [(inv_inductive.reachable hr h).posted]
    split <;> simp_all
  · obtain ⟨t, ht, -⟩ := step_spec (inv_inductive.reachable hr) he ho
    exact ⟨t, ht⟩

/-! ## One handle on one loop -/

def one (g : Handle) (p : Option Stage) : State Unit Unit := ⟨fun _ => g, fun _ => p.map ((), ·)⟩

abbrev theLoop : Unit → Unit := id

theorem one_init : (system theLoop).init (one signalInit none) := ⟨fun _ => rfl, fun _ => rfl⟩

theorem one_step {g : Handle} {p : Option Stage} (l : Label Unit) (g' : Handle) (q : Option Stage)
    (he : enabled theLoop (one g p) l) (hs : step theLoop (one g p) l = some (one g' q)) :
    (system theLoop).step (one g p) l (one g' q) := ⟨he, hs⟩

theorem one_orderly {g : Handle} {p : Option Stage} (l : Label Unit) (g' : Handle) (q : Option Stage) (ho : Orderly (one g p) l)
    (he : enabled theLoop (one g p) l) (hs : step theLoop (one g p) l = some (one g' q)) :
    ((system theLoop).restrict Orderly).step (one g p) l (one g' q) := ⟨ho, he, hs⟩

theorem history_one : ((system theLoop).restrict Orderly).History
    [.start () 2 true, .dispatch 2, .exchange (), .callback (), .ret (), .oneShot (), .finish (), .close (), .endgame ()]
    (one ⟨0, 0, true, true, true, true, false, false, 0⟩ none) := by
  have h0 : ((system theLoop).restrict Orderly).History [] (one signalInit none) := .nil one_init
  have h1 := h0.snoc (one_orderly (.start () 2 true) ⟨0, 2, true, false, false, false, false, true, 0⟩ none trivial ⟨trivial, rfl⟩ rfl)
  have h2 := h1.snoc (one_orderly (.dispatch 2) ⟨2, 2, true, true, false, false, false, true, 1⟩ none
    (fun _ _ _ => by simp [one]) trivial rfl)
  have h3 := h2.snoc (one_orderly (.exchange ()) ⟨0, 2, true, true, false, false, false, true, 0⟩ (some (.exchanged 2)) trivial
    ⟨rfl, one_pos⟩ rfl)
  have h4 := h3.snoc (one_orderly (.callback ()) _ (some .callback) trivial rfl rfl)
  have h5 := h4.snoc (one_orderly (.ret ()) _ (some .oneShot) trivial rfl rfl)
  have h6 := h5.snoc (one_orderly (.oneShot ()) ⟨0, 0, true, true, false, false, false, false, 0⟩ (some .finish) trivial rfl rfl)
  have h7 := h6.snoc (one_orderly (.finish ()) _ none (fun _ => rfl) rfl rfl)
  have h8 := h7.snoc (one_orderly (.close ()) ⟨0, 0, true, true, true, false, true, false, 0⟩ none trivial ⟨trivial, rfl⟩ rfl)
  exact h8.snoc (one_orderly (.endgame ()) _ none trivial ⟨rfl, rfl⟩ rfl)

/-- It is a fair run, when nobody watches for the signals that follow. -/
theorem signal_delivery_one : (∃ s, ((system theLoop).restrict Orderly).Reachable s ∧ (s.handles ()).posted ≤ 1) ∧
    ∃ ρ : ((system theLoop).restrict Orderly).InfRun, ρ.label 1 = .dispatch 2 ∧ ((ρ.state 8).handles ()).closing = true ∧
      (∃ m, 8 ≤ m ∧ ((ρ.state m).handles ()).closed = true) ∧
      ∃ k, 1 < k ∧ (ρ.label k = .callback () ∨ ¬ ((ρ.state k).handles ()).Started 2) := by
  obtain ⟨ρ, hlab, hend⟩ := history_one.forever (one_orderly (.dispatch 5) _ none (fun _ ht => by cases ht) trivial rfl)
  have h0 : ρ.state 0 = one signalInit none := by
    obtain ⟨h1, h2⟩ := ρ.init
    exact congrArg₂ State.mk (funext h1) (funext h2)
  have hfair : ρ.Fair Label.thread (Active theLoop) := by
    intro p n ha
    by_cases hn : n ≤ 8
    · cases p with
      | none => exact ha.elim
      | some h => exact ⟨8, hn, by rw [hlab]; rfl⟩
    · rw [hend n (by simp; omega)] at ha
      cases p with
      | none => exact ha.elim
      | some h => rcases ha with ha | ha | ha <;> simp [one, State.place] at ha
  have h1 : ((ρ.state 1).handles ()).Started 2 := by
    have hs := (ρ.step 0).2.2
    rw [hlab, h0] at hs
    rw [← Option.some.inj hs]
    exact ⟨rfl, rfl⟩
  have h8 : ((ρ.state 8).handles ()).closing = true := by
    have he := (ρ.step 8).2.1
    rw [hlab] at he
    exact ((inv_inductive.reachable (ρ.reachable 8) ()).queued he.2).1
  obtain ⟨hsafe, hlive⟩ := signal_delivery theLoop
  obtain ⟨hclose, hcall⟩ := hlive ρ hfair
  exact ⟨⟨_, ρ.reachable 9, ((hsafe _ (ρ.reachable 9)).1 ()).1⟩, ρ, hlab 1, h8, hclose () 8 h8, hcall () 2 1 (hlab 1) h1⟩

/-- **A signal stays pending without a completion.** The one-shot watcher is dispatched to again before it
is stopped. -/
theorem pending_unposted : ¬ ∀ s, (system theLoop).Reachable s →
    ∀ h, (s.handles h).pendingSignum ≠ 0 ↔ (s.handles h).posted = 1 := by
  intro hall
  have h0 : (system theLoop).Reachable (one signalInit none) := .init one_init
  have h1 := h0.step (one_step (.start () 2 true) ⟨0, 2, true, false, false, false, false, true, 0⟩ none ⟨trivial, rfl⟩ rfl)
  have h2 := h1.step (one_step (.dispatch 2) ⟨2, 2, true, true, false, false, false, true, 1⟩ none trivial rfl)
  have h3 := h2.step (one_step (.exchange ()) ⟨0, 2, true, true, false, false, false, true, 0⟩ (some (.exchanged 2))
    ⟨rfl, one_pos⟩ rfl)
  have h4 := h3.step (one_step (.dispatch 2) ⟨2, 2, true, true, false, false, false, true, 0⟩ (some (.exchanged 2)) trivial rfl)
  exact absurd ((hall _ h4 ()).1 (by decide)) (by decide)

/-- A watcher is closed in its callback, after the signal came again: the endgame finds the second one pending. -/
theorem endgame_overtakes : ∃ s, (system theLoop).Reachable s ∧ enabled theLoop s (.endgame ()) ∧
    step theLoop s (.endgame ()) = none := by
  have h0 : (system theLoop).Reachable (one signalInit none) := .init one_init
  have h1 := h0.step (one_step (.start () 2 false) ⟨0, 2, false, false, false, false, false, true, 0⟩ none ⟨trivial, rfl⟩ rfl)
  have h2 := h1.step (one_step (.dispatch 2) ⟨2, 2, false, false, false, false, false, true, 1⟩ none trivial rfl)
  have h3 := h2.step (one_step (.exchange ()) ⟨0, 2, false, false, false, false, false, true, 0⟩ (some (.exchanged 2))
    ⟨rfl, one_pos⟩ rfl)
  have h4 := h3.step (one_step (.callback ()) _ (some .callback) rfl rfl)
  have h5 := h4.step (one_step (.dispatch 2) ⟨2, 2, false, false, false, false, false, true, 1⟩ (some .callback) trivial rfl)
  have h6 := h5.step (one_step (.close ()) ⟨2, 0, false, false, true, false, false, false, 1⟩ (some .callback) ⟨rfl, rfl⟩ rfl)
  have h7 := h6.step (one_step (.ret ()) _ (some .oneShot) rfl rfl)
  have h8 := h7.step (one_step (.oneShot ()) _ (some .finish) rfl rfl)
  have h9 := h8.step (one_step (.finish ()) ⟨2, 0, false, false, true, false, true, false, 1⟩ none rfl rfl)
  exact ⟨_, h9, ⟨rfl, rfl⟩, rfl⟩

end Libuv.L5.Signal
