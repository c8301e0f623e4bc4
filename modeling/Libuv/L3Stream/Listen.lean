import Libuv.L3Stream.QueuedFds

/-!
# Listening streams (`stream.c`)

`uv__server_io`, `uv_listen` and `uv_accept` on one server. `accepted_fd` holds a connection until
`uv_accept` consumes it; if the callback leaves it there, `uv__server_io` stops to wait for
`POLLIN`, and the `uv_accept` that comes later has to start again.

A step is a call of the API, made between events or from a callback, an event up to the loop, a round
of the loop up to the callback, or the callback's return; an assertion that fails has no result.
`rcount` is the backlog that kqueue reports. The nap of `UV_HANDLE_TCP_SINGLE_ACCEPT` is left out,
and `uv__stream_fd` is -1 from `uv_close` on.

* `keeps_listening`: between events the server waits for `POLLIN` exactly if no connection is held back, if
  `uv_accept` with a client that cannot adopt the descriptor and `uv_listen` are not called while
  one is.
* `stops_listening`, `listens_twice`: what happens otherwise.
-/
namespace Libuv.L3.Listen

open QueuedFds (Fds Client)

/-- What `uv__accept` returns: a connection, `UV_EAGAIN`, `UV_ECONNABORTED`, `UV_EMFILE` or `UV_ENFILE` with
whether `uv__emfile_trick` returns `UV_EAGAIN`, or another error. -/
inductive AcceptResult
  | connection
  | again
  | aborted
  | emfile (again : Bool)
  | error
  deriving DecidableEq

/-- Where `uv__server_io` is, with what is left of `rcount`. -/
inductive Pc
  | idle
  | loop (rcount : ℕ)
  | errorCb (rcount : ℕ)
  | connectionCb (rcount : ℕ)
  deriving DecidableEq

structure State where
  fds : Fds
  pollin : Bool
  listening : Bool
  closing : Bool
  pc : Pc
  fresh : ℕ

namespace State
variable (s : State)

/-- `uv_listen`; `ok` is whether the socket could be had and `listen` succeeds.
mirrors unix/stream.c:687-711, libuv/src/unix/tcp.c:357-405 and libuv/src/unix/pipe.c:94-119 -/
def listen (ok : Bool) : State := if ok then { s with listening := true, pollin := true } else s

/-- mirrors unix/stream.c:616-682 -/
def accept (client : Client) : Option State :=
  (s.fds.accept client).map fun r => { s with fds := r.fds, pollin := s.pollin || r.rearm }

/-- `uv__stream_close` -/
def close : State := { s with fds := s.fds.closeAll.1, pollin := false, closing := true }

/-- `uv__server_io` up to its loop.
mirrors unix/stream.c:535-546 -/
def serverIo (rcount : ℕ) : Option State :=
  if s.fds.acceptedFd ≠ none then none
  else if s.closing then none
  else some { s with pollin := true, pc := .loop rcount }

/-- A round of the loop, up to the callback.
mirrors unix/stream.c:548-588 -/
def round (kqueue : Bool) (rcount : ℕ) (r : AcceptResult) : Option State :=
  if s.closing then some { s with pc := .idle }
  else if s.fds.acceptedFd ≠ none then none
  else if kqueue && rcount = 0 then some { s with pc := .idle }
  else
    match r with
    | .again => some { s with pc := .idle }
    | .aborted => some { s with pc := .loop rcount }
    | .emfile true => some { s with pc := .idle }
    | .emfile false => some { s with pc := .errorCb rcount }
    | .error => some { s with pc := .errorCb rcount }
    | .connection =>
      some { s with
        fds := { s.fds with acceptedFd := some s.fresh }
        fresh := s.fresh + 1
        pc := .connectionCb (rcount - 1) }

/-- The round from the callback's return.
mirrors unix/stream.c:590-606 -/
def afterConnection (rcount : ℕ) : State :=
  if s.fds.acceptedFd ≠ none then { s with pollin := false, pc := .idle } else { s with pc := .loop rcount }

end State

inductive Label
  | listen (ok : Bool)
  | accept (client : Client)
  | close
  | event (rcount : ℕ)
  | round (r : AcceptResult)
  | ret
  deriving DecidableEq

def Pc.isLoop : Pc → Bool
  | loop _ => true
  | _ => false

def enabled (s : State) : Label → Bool
  | .listen _ => !s.pc.isLoop && !s.closing
  | .accept _ => !s.pc.isLoop
  | .close => !s.pc.isLoop && !s.closing
  | .event _ => s.pc = .idle && s.listening && s.pollin
  | .round _ => s.pc.isLoop
  | .ret => !s.pc.isLoop && s.pc ≠ .idle

def step (kqueue : Bool) (s : State) : Label → Option State
  | .listen ok => some (s.listen ok)
  | .accept client => s.accept client
  | .close => some s.close
  | .event rcount => s.serverIo rcount
  | .round r =>
    match s.pc with
    | .loop rcount => s.round kqueue rcount r
    | _ => none
  | .ret =>
    match s.pc with
    | .errorCb rcount => some { s with pc := .loop rcount }
    | .connectionCb rcount => some (s.afterConnection rcount)
    | _ => none

def initial : State := ⟨⟨none, none⟩, false, false, false, .idle, 0⟩

def system (kqueue : Bool) : LTS State Label where
  init s := s = initial
  step s l t := enabled s l ∧ step kqueue s l = some t

/-- A connection is held back, and the stream has stopped to wait for others. -/
def State.heldBack (s : State) : Bool := !s.pollin && s.fds.acceptedFd.isSome

/-- Nothing is done to a connection that is held back but to give it to a client that can have it. -/
def Kept (s : State) : Label → Prop
  | .listen ok => ok = true → s.heldBack = false
  | .accept client => client = .fails → s.heldBack = false
  | _ => True

/-- Between the steps. In the loop the stream waits, and no connection is held in the callback for an
error. -/
structure Inv (s : State) : Prop where
  queue : s.fds.queuedFds = none
  idle : s.pc = .idle → s.listening = true → s.closing = false → (s.pollin = true ↔ s.fds.acceptedFd = none)
  busy : s.pc ≠ .idle → s.closing = false → s.pollin = true
  free : (∃ n, s.pc = .loop n ∨ s.pc = .errorCb n) → s.fds.acceptedFd = none
  silent : s.listening = false → s.fds.acceptedFd = none ∧ s.pc = .idle
  closed : s.closing = true → s.fds.acceptedFd = none ∧ s.pollin = false

variable {s t : State} {kqueue : Bool}

theorem Inv.fds (hs : Inv s) : s.fds.Inv :=
  ⟨fun h => absurd hs.queue h, fun q hq => by rw [hs.queue] at hq; cases hq⟩

theorem accept_cases (hs : Inv s) (client : Client) : ∃ f pollin, s.accept client = some { s with fds := f, pollin := pollin } ∧
    f.queuedFds = none ∧ (f = s.fds ∧ pollin = s.pollin ∨
      f.acceptedFd = none ∧ s.fds.acceptedFd ≠ none ∧ (pollin = true ↔ s.pollin = true ∨ client = .opens) ∧ client ≠ .other) := by
  obtain ⟨r, hr, hinv, hcase⟩ := QueuedFds.accept_spec hs.fds client
  refine ⟨r.fds, s.pollin || r.rearm, by simp [State.accept, hr], ?_, ?_⟩
  all_goals rcases hcase with ⟨-, h2, h3, -⟩ | ⟨fd, h1, -, h2, -, hc, h3⟩
  · rw [h2]
    exact hs.queue
  · have hheld : s.fds.held = [fd] := by rw [Fds.held, hs.queue, h1]; rfl
    rw [hheld] at h2
    exact (QueuedFds.nothing_held hinv (List.cons.inj h2).2.symm).2
  · exact .inl ⟨h2, by rw [h3, Bool.or_false]⟩
  · have hheld : s.fds.held = [fd] := by rw [Fds.held, hs.queue, h1]; rfl
    rw [hheld] at h2
    have hnone := (QueuedFds.nothing_held hinv (List.cons.inj h2).2.symm).1
    refine .inr ⟨hnone, by rw [h1]; simp, ?_, ?_⟩
    · rw [Bool.or_eq_true, h3]
      exact or_congr_right ⟨fun h => h.1, fun h => ⟨h, hnone⟩⟩
    · rcases hc with rfl | rfl <;> simp

theorem Inv.accept (hs : Inv s) {client : Client} (hk : Kept s (.accept client)) :
    ∃ t, s.accept client = some t ∧ Inv t := by
  obtain ⟨f, pollin, hr, hq, ⟨rfl, rfl⟩ | ⟨hnone, hsome, hp, hcl⟩⟩ := accept_cases hs client
  · exact ⟨_, hr, hs⟩
  · have hlist : s.listening = true := by
      by_contra h
      exact hsome (hs.silent (by simpa using h)).1
    have hopen : s.closing = false := by
      by_contra h
      exact hsome (hs.closed (by simpa using h)).1
    -- a client that cannot adopt the connection was given it in the callback
    have hin : pollin = true := by
      refine hp.2 ?_
      cases client with
      | other => exact absurd rfl hcl
      | opens => exact .inr rfl
      | fails =>
        left
        have := hk rfl
        simp only [State.heldBack, Bool.and_eq_false_iff, Bool.not_eq_false', Option.isSome_eq_false_iff,
          Option.isNone_iff_eq_none] at this
        exact this.resolve_right hsome
    refine ⟨_, hr, ⟨hq, fun _ _ _ => ⟨fun _ => hnone, fun _ => hin⟩, fun _ _ => hin, fun _ => hnone, fun h => ?_, fun h => ?_⟩⟩
    · rw [show s.listening = false from h] at hlist
      cases hlist
    · rw [show s.closing = true from h] at hopen
      cases hopen

theorem Inv.listen (hs : Inv s) {ok : Bool} (hk : Kept s (.listen ok)) (hopen : s.closing = false) :
    Inv (s.listen ok) := by
  cases ok with
  | false => exact hs
  | true =>
    refine ⟨hs.queue, fun hidle _ _ => ⟨fun _ => ?_, fun _ => rfl⟩, fun _ _ => rfl, hs.free, nofun, fun h => ?_⟩
    · have hb := hk rfl
      simp only [State.heldBack, Bool.and_eq_false_iff, Bool.not_eq_false', Option.isSome_eq_false_iff,
        Option.isNone_iff_eq_none] at hb
      rcases hb with hp | hn
      · by_cases hl : s.listening = true
        · exact (hs.idle hidle hl hopen).1 hp
        · exact (hs.silent (by simpa using hl)).1
      · exact hn
    · rw [show s.closing = true from h] at hopen
      cases hopen

theorem Inv.close (hs : Inv s) : Inv s.close :=
  ⟨rfl, nofun, nofun, fun _ => rfl, fun h => ⟨rfl, (hs.silent h).2⟩, fun _ => ⟨rfl, rfl⟩⟩

theorem Inv.serverIo (hs : Inv s) (hidle : s.pc = .idle) (hl : s.listening = true) (hp : s.pollin = true) (rcount : ℕ) :
    ∃ t, s.serverIo rcount = some t ∧ Inv t := by
  have hopen : s.closing = false := by
    by_contra h
    have := (hs.closed (by simpa using h)).2
    rw [hp] at this
    cases this
  have hnone := (hs.idle hidle hl hopen).1 hp
  refine ⟨{ s with pollin := true, pc := .loop rcount }, by simp [State.serverIo, hnone, hopen],
    ⟨hs.queue, nofun, fun _ _ => rfl, fun _ => hnone, fun h => ?_, fun h => ?_⟩⟩
  · rw [show s.listening = false from h] at hl
    cases hl
  · rw [show s.closing = true from h] at hopen
    cases hopen

theorem Inv.round (hs : Inv s) (kqueue : Bool) {rcount : ℕ} (hpc : s.pc = .loop rcount) (r : AcceptResult) :
    ∃ t, s.round kqueue rcount r = some t ∧ Inv t := by
  have hnone := hs.free ⟨rcount, .inl hpc⟩
  have hbusy : s.closing = false → s.pollin = true := hs.busy (by rw [hpc]; nofun)
  have hlist : s.listening = true := by
    by_contra h
    have := (hs.silent (by simpa using h)).2
    rw [hpc] at this
    cases this
  have hsilent : ∀ {p : Prop}, s.listening = false → p := fun h => absurd h (by rw [hlist]; nofun)
  have stop : Inv { s with pc := .idle } :=
    ⟨hs.queue, fun _ _ hc => ⟨fun _ => hnone, fun _ => hbusy hc⟩, nofun, fun ⟨n, h⟩ => (by rcases h with h | h <;> cases h),
      fun h => hsilent h, hs.closed⟩
  have go : ∀ p : Pc, (p = .loop rcount ∨ p = .errorCb rcount) → Inv { s with pc := p } := fun p hp =>
    ⟨hs.queue, fun h => (by rcases hp with rfl | rfl <;> cases h), fun _ => hbusy, fun _ => hnone, fun h => hsilent h, hs.closed⟩
  unfold State.round
  by_cases hcl : s.closing = true
  · rw [if_pos hcl]
    exact ⟨_, rfl, stop⟩
  rw [if_neg hcl, if_neg (by rw [hnone]; simp)]
  split
  · exact ⟨_, rfl, stop⟩
  · cases r with
    | again => exact ⟨_, rfl, stop⟩
    | aborted => exact ⟨_, rfl, go _ (.inl rfl)⟩
    | emfile again =>
      cases again with
      | true => exact ⟨_, rfl, stop⟩
      | false => exact ⟨_, rfl, go _ (.inr rfl)⟩
    | error => exact ⟨_, rfl, go _ (.inr rfl)⟩
    | connection =>
      refine ⟨_, rfl, ⟨hs.queue, nofun, fun _ => hbusy, fun ⟨n, h⟩ => ?_, fun h => hsilent h, fun h => absurd h hcl⟩⟩
      rcases h with h | h <;> cases h

theorem Inv.afterConnection (hs : Inv s) {rcount : ℕ} (hpc : s.pc = .connectionCb rcount) : Inv (s.afterConnection rcount) := by
  have hsilent : ∀ {p : Prop}, s.listening = false → p := fun h => by
    have := (hs.silent h).2
    rw [hpc] at this
    cases this
  unfold State.afterConnection
  split
  · rename_i hsome
    refine ⟨hs.queue, fun _ _ _ => ⟨nofun, fun h => absurd h hsome⟩, nofun, fun ⟨n, h⟩ => ?_, fun h => hsilent h,
      fun h => ⟨(hs.closed h).1, rfl⟩⟩
    rcases h with h | h <;> cases h
  · rename_i hnone
    refine ⟨hs.queue, nofun, fun _ => hs.busy (by rw [hpc]; nofun), fun _ => not_not.1 hnone, fun h => hsilent h, hs.closed⟩

/-- **Every step** that keeps a connection that is held back. -/
theorem inv_step (hs : Inv s) (kqueue : Bool) {l : Label} (hk : Kept s l) (hen : enabled s l = true) :
    ∃ t, step kqueue s l = some t ∧ Inv t := by
  cases l with
  | listen ok =>
    simp only [enabled, Bool.and_eq_true, Bool.not_eq_true'] at hen
    exact ⟨_, rfl, hs.listen hk hen.2⟩
  | accept client => exact hs.accept hk
  | close => exact ⟨_, rfl, hs.close⟩
  | event rcount =>
    simp only [enabled, Bool.and_eq_true, decide_eq_true_eq] at hen
    exact hs.serverIo hen.1.1 hen.1.2 hen.2 rcount
  | round r =>
    cases hpc : s.pc with
    | loop rcount =>
      obtain ⟨t, ht, hinv⟩ := hs.round kqueue hpc r
      exact ⟨t, by simp [step, hpc, ht], hinv⟩
    | idle | errorCb rcount | connectionCb rcount => simp [enabled, Pc.isLoop, hpc] at hen
  | ret =>
    cases hpc : s.pc with
    | errorCb rcount =>
      refine ⟨{ s with pc := .loop rcount }, by simp [step, hpc], ⟨hs.queue, nofun, fun _ => hs.busy (by rw [hpc]; nofun),
        fun _ => hs.free ⟨rcount, .inr hpc⟩, fun h => ?_, hs.closed⟩⟩
      have := (hs.silent h).2
      rw [hpc] at this
      cases this
    | connectionCb rcount => exact ⟨_, by simp [step, hpc], hs.afterConnection hpc⟩
    | idle => simp [enabled, hpc] at hen
    | loop rcount => simp [enabled, Pc.isLoop, hpc] at hen

theorem initial_inv : Inv initial :=
  ⟨rfl, nofun, fun h => absurd rfl h, fun _ => rfl, fun _ => ⟨rfl, rfl⟩, nofun⟩

/-- **A listening stream**: in a run in which a connection that is held back is only given to a client
that can adopt it, and `uv_listen` is not called meanwhile, the server waits for `POLLIN` between events
exactly if no connection is held back, and no assertion fails. -/
theorem keeps_listening (h : ((system kqueue).restrict Kept).Reachable s) :
    (s.pc = .idle → s.listening = true → s.closing = false → (s.pollin = true ↔ s.fds.acceptedFd = none)) ∧
      ∀ l, Kept s l → enabled s l = true → ∃ t, step kqueue s l = some t := by
  have hi : ((system kqueue).restrict Kept).Inductive Inv := by
    refine ⟨fun s hs => ?_, fun s l t hs ht => ?_⟩
    · rw [show s = initial from hs]
      exact initial_inv
    · obtain ⟨hk, hen, hst⟩ := ht
      obtain ⟨u, hu, hinv⟩ := inv_step hs kqueue hk hen
      rw [hst] at hu
      cases hu
      exact hinv
  have hs := hi.reachable h
  refine ⟨hs.idle, fun l hk hen => ?_⟩
  obtain ⟨t, ht, -⟩ := inv_step hs kqueue hk hen
  exact ⟨t, ht⟩

/-- A connection is held back and accepted later; the client of the next one fails in the callback. -/
theorem keeps_listening_two : ∃ s, ((system false).restrict Kept).Reachable s ∧ s.fresh = 2 ∧ s.pc = .idle ∧
    (s.pollin = true ↔ s.fds.acceptedFd = none) ∧ s.pollin = true := by
  have h0 : ((system false).restrict Kept).Reachable initial := .init rfl
  have h1 := h0.next (.listen true) ⟨fun _ => rfl, rfl, rfl⟩
  have h2 := h1.next (.event 0) ⟨trivial, rfl, rfl⟩
  have h3 := h2.next (.round .connection) ⟨trivial, rfl, rfl⟩
  have h4 := h3.next .ret ⟨trivial, rfl, rfl⟩
  have h5 := h4.next (.accept .opens) ⟨nofun, rfl, rfl⟩
  have h6 := h5.next (.event 0) ⟨trivial, rfl, rfl⟩
  have h7 := h6.next (.round .connection) ⟨trivial, rfl, rfl⟩
  have h8 := h7.next (.accept .fails) ⟨fun _ => rfl, rfl, rfl⟩
  have h9 := h8.next .ret ⟨trivial, rfl, rfl⟩
  have h10 := h9.next (.round .again) ⟨trivial, rfl, rfl⟩
  exact ⟨_, h10, rfl, rfl, (keeps_listening h10).1 rfl rfl rfl, rfl⟩

/-- **The server that stops**: a connection is held back, and the client it is given to later cannot
adopt it. -/
theorem stops_listening : ∃ s, (system false).Reachable s ∧ s.pc = .idle ∧ s.listening = true ∧ s.closing = false ∧
    s.fds.acceptedFd = none ∧ s.pollin = false := by
  have h0 : (system false).Reachable initial := .init rfl
  have h1 := h0.next (.listen true) ⟨rfl, rfl⟩
  have h2 := h1.next (.event 0) ⟨rfl, rfl⟩
  have h3 := h2.next (.round .connection) ⟨rfl, rfl⟩
  have h4 := h3.next .ret ⟨rfl, rfl⟩
  have h5 := h4.next (.accept .fails) ⟨rfl, rfl⟩
  exact ⟨_, h5, rfl, rfl, rfl, rfl, rfl⟩

/-- **The other way**: `uv_listen` while a connection is held back lets the next event come, on which
`uv__server_io` fails. -/
theorem listens_twice : ∃ s, (system false).Reachable s ∧ s.pc = .idle ∧ s.pollin = true ∧ s.fds.acceptedFd ≠ none ∧
    enabled s (.event 0) = true ∧ step false s (.event 0) = none := by
  have h0 : (system false).Reachable initial := .init rfl
  have h1 := h0.next (.listen true) ⟨rfl, rfl⟩
  have h2 := h1.next (.event 0) ⟨rfl, rfl⟩
  have h3 := h2.next (.round .connection) ⟨rfl, rfl⟩
  have h4 := h3.next .ret ⟨rfl, rfl⟩
  have h5 := h4.next (.listen true) ⟨rfl, rfl⟩
  exact ⟨_, h5, rfl, rfl, nofun, rfl, rfl⟩

end Libuv.L3.Listen
