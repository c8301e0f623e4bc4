import Mathlib.Tactic
import Libuv.Core.Fairness

/-!
# Async handles on Windows (`win/async.c`)

`uv_async_send` exchanges `async_sent` with 1 and, if it was 0, posts `async_req`; the two are steps of
their own. Any number of threads send (one of them may stand for the sends of the loop thread itself). The loop
thread takes the completion off the port into the ring of pending requests, from there runs
`uv__process_async_wakeup_req`, and between its steps and in the callback runs code of the user, who may close
the handle: `uv__async_close` reads the flag, and only then is `UV_HANDLE_CLOSING` set, until which
threads go on sending. `port` and `ring` count the completions of `async_req` in either place. A step whose
assertion fails is `none`.

* `Inv.token`: the flag stands for one completion that is on its way, at one `Place`.
* `wakeup`: the request is posted once at a time, a send is followed by the callback or the handle is closed
  first, and it is closed once, with no completion on its way.
-/
namespace Libuv.L5.AsyncWakeup

/-! ## State -/

inductive Pc
  | idle
  /-- in `uv__process_async_wakeup_req` -/
  | entered
  /-- behind `async_sent = 0` -/
  | cleared
  | callback
  /-- in `uv_close`, behind the look at the flag; called from the callback or not -/
  | closing (inCallback : Bool)
deriving DecidableEq

structure State (Θ : Type*) where
  asyncSent : Bool
  closing : Bool
  closed : Bool
  endgameQueued : Bool
  closeCbs : ℕ
  port : ℕ
  ring : ℕ
  pc : Pc
  /-- the thread is between the steps of `uv_async_send`, and will post -/
  sending : Θ → Bool

inductive Label (Θ : Type*)
  | exchange (p : Θ)
  | post (p : Θ)
  /-- the completion is taken off the port -/
  | poll
  | process
  | clear
  | wakeup
  | ret
  | close
  | closing
  | endgame
  /-- something that does not concern the handle -/
  | other
deriving DecidableEq

inductive Thread (Θ : Type*)
  | sender (p : Θ)
  | loop
  | elsewhere

def Label.thread {Θ : Type*} : Label Θ → Thread Θ
  | .exchange p | .post p => .sender p
  | .other => .elsewhere
  | _ => .loop

variable {Θ : Type*} [DecidableEq Θ]

/-- mirrors win/async.c:40-54 -/
def asyncInit : State Θ := ⟨false, false, false, false, 0, 0, 0, .idle, fun _ => false⟩

namespace State
variable (s : State Θ)

/-- `uv__want_endgame`
mirrors win/handle-inl.h:88-95 -/
def wantEndgame : State Θ := { s with endgameQueued := true }

/-- The first step of `uv_async_send`; the thread posts if the flag was 0.
mirrors win/async.c:75 -/
def exchange (p : Θ) : State Θ := { s with asyncSent := true, sending := Function.update s.sending p (!s.asyncSent) }

/-- mirrors win/async.c:76 -/
def post (p : Θ) : State Θ := { s with port := s.port + 1, sending := Function.update s.sending p false }

/-- `uv__process_async_wakeup_req` after the flag is cleared.
mirrors win/async.c:90-94 -/
def wakeup (asyncCb : Bool) : State Θ :=
  if s.closing then { s.wantEndgame with pc := .idle }
  else if asyncCb then { s with pc := .callback }
  else { s with pc := .idle }

/-- `uv__async_close` up to the flags.
mirrors win/async.c:58-60 -/
def close : State Θ :=
  let s := if s.asyncSent then s else s.wantEndgame
  { s with pc := .closing (s.pc == .callback) }

/-- `uv__handle_closing`
mirrors win/handle-inl.h:63-73 -/
def handleClosing (inCallback : Bool) : Option (State Θ) :=
  if s.closing then none else some { s with closing := true, pc := if inCallback then .callback else .idle }

/-- `uv__process_endgames` takes the handle off and calls `uv__async_endgame`.
mirrors win/async.c:31-37 -/
def endgame : Option (State Θ) :=
  let s := { s with endgameQueued := false }
  if s.closing && !s.asyncSent then
    if s.closed then none else some { s with closed := true, closeCbs := s.closeCbs + 1 }
  else some s

end State

/-- What may happen next. No thread starts to send once the handle is closing, and it is closed by the user once. -/
def enabled (s : State Θ) : Label Θ → Prop
  | .exchange p => s.closing = false ∧ s.sending p = false
  | .post p => s.sending p = true
  | .poll => s.pc = .idle ∧ 0 < s.port
  | .process => s.pc = .idle ∧ 0 < s.ring
  | .clear => s.pc = .entered
  | .wakeup => s.pc = .cleared
  | .ret => s.pc = .callback
  | .close => (s.pc = .idle ∨ s.pc = .callback) ∧ s.closing = false
  | .closing => ∃ b, s.pc = .closing b
  | .endgame => s.pc = .idle ∧ s.endgameQueued = true
  | .other => True

/-- `asyncCb` says that the handle has a callback. -/
def step (asyncCb : Bool) (s : State Θ) : Label Θ → Option (State Θ)
  | .exchange p => some (s.exchange p)
  | .post p => some (s.post p)
  | .poll => some { s with port := s.port - 1, ring := s.ring + 1 }
  | .process => some { s with ring := s.ring - 1, pc := .entered }
  | .clear => some { s with asyncSent := false, pc := .cleared }
  | .wakeup => some (s.wakeup asyncCb)
  | .ret => some { s with pc := .idle }
  | .close => some s.close
  | .closing => s.handleClosing (s.pc == .closing true)
  | .endgame => s.endgame
  | .other => some s

def system (Θ : Type*) [DecidableEq Θ] (asyncCb : Bool) : LTS (State Θ) (Label Θ) where
  init s := s = asyncInit
  step s l t := enabled s l ∧ step asyncCb s l = some t

/-! ## One completion on its way -/

/-- Where the completion that the flag stands for is. -/
inductive Place (Θ : Type*)
  | thread (p : Θ)
  | port
  | ring
  | entered

def onPort : Option (Place Θ) → ℕ
  | some .port => 1
  | _ => 0

def inRing : Option (Place Θ) → ℕ
  | some .ring => 1
  | _ => 0

structure At (s : State Θ) (o : Option (Place Θ)) : Prop where
  sent : s.asyncSent = o.isSome
  sending : ∀ p, s.sending p = true ↔ o = some (.thread p)
  port : s.port = onPort o
  ring : s.ring = inRing o
  entered : s.pc = .entered ↔ o = some .entered

structure Inv (s : State Θ) : Prop where
  token : ∃ o, At s o
  path : s.closing = true → s.closed = false → s.endgameQueued = true ∨ s.asyncSent = true ∨ s.pc = .cleared
  reading : ∀ b, s.pc = .closing b → s.closing = false ∧ (s.endgameQueued = true ∨ s.asyncSent = true)
  queued : s.endgameQueued = true → s.closed = false ∧ (s.closing = true ∨ ∃ b, s.pc = .closing b)
  closed : s.closed = true → s.closing = true ∧ s.asyncSent = false ∧ s.pc ≠ .cleared
  closeCbs : s.closeCbs = if s.closed then 1 else 0

variable {asyncCb : Bool} {s t : State Θ}

/-! ### What a step does to the completion -/

namespace At
variable {o : Option (Place Θ)}

theorem exchange (h : At s o) {p : Θ} (hp : s.sending p = false) :
    (s.asyncSent = true ∧ s.exchange p = s) ∨ (s.asyncSent = false ∧ At (s.exchange p) (some (.thread p))) := by
  cases hs : s.asyncSent with
  | true =>
    refine .inl ⟨rfl, ?_⟩
    have hu : Function.update s.sending p (!s.asyncSent) = s.sending := by
      rw [hs, Function.update_eq_self_iff, hp]
      rfl
    rw [State.exchange, hu, ← hs]
  | false =>
    have ho : o = none := by
      have := h.sent
      rw [hs] at this
      simpa using this.symm
    subst ho
    refine .inr ⟨rfl, rfl, fun q => ?_, h.port, h.ring, ⟨fun he => ?_, fun he => ?_⟩⟩
    · by_cases hq : q = p
      · subst hq
        simp [State.exchange, hs]
      · have : s.sending q = false := by
          by_contra hc
          have := (h.sending q).1 (by simpa using hc)
          cases this
        simp [State.exchange, Function.update_of_ne hq, this, Ne.symm hq]
    · have := h.entered.1 he
      cases this
    · cases he

theorem post (h : At s o) {p : Θ} (hp : s.sending p = true) : o = some (.thread p) ∧ At (s.post p) (some .port) := by
  obtain rfl := (h.sending p).1 hp
  refine ⟨rfl, h.sent, fun q => ?_, by simp [State.post, h.port, onPort], h.ring, ⟨fun he => ?_, fun he => ?_⟩⟩
  · by_cases hq : q = p
    · subst hq
      simp [State.post]
    · have := (h.sending q)
      simp [State.post, Function.update_of_ne hq, this, Ne.symm hq]
  · have := h.entered.1 he
    cases this
  · cases he

section
omit [DecidableEq Θ]

theorem poll (h : At s o) (hp : 0 < s.port) : At { s with port := s.port - 1, ring := s.ring + 1 } (some .ring) := by
  have ho : o = some .port := by
    rw [h.port] at hp
    unfold onPort at hp
    split at hp
    · rfl
    · cases hp
  subst ho
  refine ⟨h.sent, fun p => ?_, by simp [h.port, onPort], by simp [h.ring, inRing], ?_⟩
  · rw [h.sending p]
    simp
  · rw [h.entered]
    simp

theorem process (h : At s o) (hr : 0 < s.ring) : At { s with ring := s.ring - 1, pc := .entered } (some .entered) := by
  have ho : o = some .ring := by
    rw [h.ring] at hr
    unfold inRing at hr
    split at hr
    · rfl
    · cases hr
  subst ho
  refine ⟨h.sent, fun p => ?_, h.port, by simp [h.ring, inRing], by simp⟩
  rw [h.sending p]
  simp

theorem clear (h : At s o) (he : s.pc = .entered) : o = some .entered ∧ At { s with asyncSent := false, pc := .cleared } none := by
  obtain rfl := h.entered.1 he
  refine ⟨rfl, rfl, fun p => ?_, h.port, h.ring, by simp⟩
  rw [h.sending p]
  simp

theorem move (h : At s o) (e1 : t.asyncSent = s.asyncSent) (e2 : t.sending = s.sending) (e3 : t.port = s.port)
    (e4 : t.ring = s.ring) (e5 : t.pc = .entered ↔ s.pc = .entered) : At t o :=
  ⟨e1.trans h.sent, e2 ▸ h.sending, e3.trans h.port, e4.trans h.ring, e5.trans h.entered⟩

end

end At

section
omit [DecidableEq Θ]

theorem Inv.queued' (hi : Inv s) (hq : s.endgameQueued = true) (hpc : ∀ b, s.pc ≠ .closing b) :
    s.closed = false ∧ s.closing = true := by
  obtain ⟨hc, h | ⟨b, hb⟩⟩ := hi.queued hq
  · exact ⟨hc, h⟩
  · exact absurd hb (hpc b)

theorem Inv.closed_of_open (hi : Inv s) (hcl : s.closing = false) : s.closed = false := by
  by_contra hc
  exact absurd (hcl.symm.trans (hi.closed (by simpa using hc)).1) (by decide)

end

/-! ### The operations -/

theorem Inv.exchange (hi : Inv s) {p : Θ} (hcl : s.closing = false) (hp : s.sending p = false) : Inv (s.exchange p) := by
  obtain ⟨o, ho⟩ := hi.token
  rcases ho.exchange hp with ⟨-, e⟩ | ⟨hs, ha⟩
  · rwa [e]
  · exact { hi with
      token := ⟨_, ha⟩
      path := fun hc => absurd (hcl.symm.trans hc) (by decide)
      reading := fun b hb => ⟨hcl, .inr rfl⟩
      closed := fun hc => absurd (hcl.symm.trans (hi.closed hc).1) (by decide) }

theorem Inv.post (hi : Inv s) {p : Θ} (hp : s.sending p = true) : Inv (s.post p) := by
  obtain ⟨o, ho⟩ := hi.token
  exact { hi with token := ⟨_, (ho.post hp).2⟩ }

section
omit [DecidableEq Θ]

theorem Inv.poll (hi : Inv s) (hp : 0 < s.port) : Inv { s with port := s.port - 1, ring := s.ring + 1 } := by
  obtain ⟨o, ho⟩ := hi.token
  exact { hi with token := ⟨_, ho.poll hp⟩ }

theorem Inv.process (hi : Inv s) (hpc : s.pc = .idle) (hr : 0 < s.ring) :
    Inv { s with ring := s.ring - 1, pc := .entered } := by
  obtain ⟨o, ho⟩ := hi.token
  have ha := ho.process hr
  refine { hi with
    token := ⟨_, ha⟩
    path := fun _ _ => .inr (.inl ha.sent)
    reading := by simp
    queued := fun hq => ?_
    closed := fun hc => ⟨(hi.closed hc).1, (hi.closed hc).2.1, by simp⟩ }
  obtain ⟨h1, h2⟩ := hi.queued' hq (by simp [hpc])
  exact ⟨h1, .inl h2⟩

theorem Inv.clear (hi : Inv s) (hpc : s.pc = .entered) : Inv { s with asyncSent := false, pc := .cleared } := by
  obtain ⟨o, ho⟩ := hi.token
  obtain ⟨rfl, ha⟩ := ho.clear hpc
  refine { hi with
    token := ⟨_, ha⟩
    path := fun _ _ => .inr (.inr rfl)
    reading := by simp
    queued := fun hq => ?_
    closed := fun hc => absurd (ho.sent.symm.trans (hi.closed hc).2.1) (by simp) }
  obtain ⟨h1, h2⟩ := hi.queued' hq (by simp [hpc])
  exact ⟨h1, .inl h2⟩

theorem Inv.woken (hi : Inv s) (hpc : s.pc = .cleared) (asyncCb : Bool) : Inv (s.wakeup asyncCb) := by
  obtain ⟨o, ho⟩ := hi.token
  have hcd : s.closed = false := by
    by_contra hc
    exact (hi.closed (by simpa using hc)).2.2 hpc
  unfold State.wakeup
  split
  · next hc =>
    exact { hi with
      token := ⟨o, ho.move rfl rfl rfl rfl (by simp [hpc])⟩
      path := fun _ _ => .inl rfl
      reading := by simp
      queued := fun _ => ⟨hcd, .inl hc⟩
      closed := fun hc => by simp [State.wantEndgame, hcd] at hc }
  · next hc =>
    -- with or without a callback
    have hopen (q : Pc) (hq : q ≠ .entered) (hb : ∀ b, q ≠ .closing b) : Inv { s with pc := q } := by
      refine { hi with
        token := ⟨o, ho.move rfl rfl rfl rfl (by simp [hpc, hq])⟩
        path := fun h => absurd h hc
        reading := fun b h => absurd h (hb b)
        queued := fun h => ?_
        closed := fun h => ?_ }
      · exact absurd (hi.queued' h (by simp [hpc])).2 hc
      · exact absurd (hi.closed h).1 hc
    split
    · exact hopen _ (by decide) (by simp)
    · exact hopen _ (by decide) (by simp)

theorem Inv.ret (hi : Inv s) (hpc : s.pc = .callback) : Inv { s with pc := .idle } := by
  obtain ⟨o, ho⟩ := hi.token
  refine { hi with
    token := ⟨o, ho.move rfl rfl rfl rfl (by simp [hpc])⟩
    path := fun h1 h2 => ?_
    reading := by simp
    queued := fun hq => ?_
    closed := fun hc => ⟨(hi.closed hc).1, (hi.closed hc).2.1, by simp⟩ }
  · rcases hi.path h1 h2 with h | h | h
    · exact .inl h
    · exact .inr (.inl h)
    · simp [hpc] at h
  · obtain ⟨h1, h2⟩ := hi.queued' hq (by simp [hpc])
    exact ⟨h1, .inl h2⟩

theorem Inv.close (hi : Inv s) (hpc : s.pc ≠ .entered) (hcl : s.closing = false) : Inv s.close := by
  obtain ⟨o, ho⟩ := hi.token
  have hcd := hi.closed_of_open hcl
  unfold State.close
  split
  · next hs =>
    exact { hi with
      token := ⟨o, ho.move rfl rfl rfl rfl (by simp [hpc])⟩
      path := fun h => absurd (hcl.symm.trans h) (by decide)
      reading := fun _ _ => ⟨hcl, .inr hs⟩
      queued := fun _ => ⟨hcd, .inr ⟨_, rfl⟩⟩
      closed := fun h => absurd (hcd.symm.trans h) (by decide) }
  · exact { hi with
      token := ⟨o, ho.move rfl rfl rfl rfl (by simp [hpc])⟩
      path := fun h => absurd (hcl.symm.trans h) (by decide)
      reading := fun _ _ => ⟨hcl, .inl rfl⟩
      queued := fun _ => ⟨hcd, .inr ⟨_, rfl⟩⟩
      closed := fun h => absurd (hcd.symm.trans h) (by decide) }

theorem Inv.handleClosing (hi : Inv s) {b : Bool} (hpc : s.pc = .closing b) (inCallback : Bool) :
    ∃ t, s.handleClosing inCallback = some t ∧ Inv t := by
  obtain ⟨o, ho⟩ := hi.token
  obtain ⟨hcl, hr⟩ := hi.reading b hpc
  have hcd := hi.closed_of_open hcl
  have hto (q : Pc) (hq : q ≠ .entered) (hb : ∀ b, q ≠ .closing b) : Inv { s with closing := true, pc := q } :=
    { hi with
      token := ⟨o, ho.move rfl rfl rfl rfl (by simp [hpc, hq])⟩
      path := fun _ _ => hr.imp_right .inl
      reading := fun b h => absurd h (hb b)
      queued := fun _ => ⟨hcd, .inl rfl⟩
      closed := fun h => absurd (hcd.symm.trans h) (by decide) }
  refine ⟨_, by rw [State.handleClosing, hcl]; rfl, hto _ ?_ ?_⟩
  · split <;> decide
  · split <;> simp

theorem Inv.endgame (hi : Inv s) (hpc : s.pc = .idle) (hq : s.endgameQueued = true) : ∃ t, s.endgame = some t ∧ Inv t := by
  obtain ⟨o, ho⟩ := hi.token
  obtain ⟨hcd, hcl⟩ := hi.queued' hq (by simp [hpc])
  simp only [State.endgame, hcl, hcd, Bool.true_and]
  split
  · next hs =>
    exact ⟨_, rfl, { hi with
      token := ⟨o, ho.move rfl rfl rfl rfl Iff.rfl⟩
      path := by simp
      reading := by simp [hpc]
      queued := by simp
      closed := fun _ => ⟨rfl, by simpa using hs, by simp [hpc]⟩
      closeCbs := by simp [hi.closeCbs, hcd] }⟩
  · next hs =>
    exact ⟨_, rfl, { hi with
      token := ⟨o, ho.move rfl rfl rfl rfl Iff.rfl⟩
      path := fun _ _ => .inr (.inl (by simpa using hs))
      reading := by simp [hpc]
      queued := by simp
      closed := by simp
      closeCbs := by simp [hi.closeCbs, hcd] }⟩

end

variable {l : Label Θ} {o : Option (Place Θ)} {p : Θ}

theorem step_spec (asyncCb : Bool) (hi : Inv s) (he : enabled s l) : ∃ t, step asyncCb s l = some t ∧ Inv t := by
  cases l with
  | exchange p => exact ⟨_, rfl, hi.exchange he.1 he.2⟩
  | post p => exact ⟨_, rfl, hi.post he⟩
  | poll => exact ⟨_, rfl, hi.poll he.2⟩
  | process => exact ⟨_, rfl, hi.process he.1 he.2⟩
  | clear => exact ⟨_, rfl, hi.clear he⟩
  | wakeup => exact ⟨_, rfl, hi.woken he asyncCb⟩
  | ret => exact ⟨_, rfl, hi.ret he⟩
  | close =>
    have hpc : s.pc ≠ .entered := by rcases he.1 with h | h <;> simp [h]
    exact ⟨_, rfl, hi.close hpc he.2⟩
  | closing =>
    obtain ⟨b, hpc⟩ := he
    exact hi.handleClosing hpc _
  | endgame => exact hi.endgame he.1 he.2
  | other => exact ⟨s, rfl, hi⟩

theorem inv_inductive (asyncCb : Bool) : (system Θ asyncCb).Inductive Inv where
  init := by
    rintro s rfl
    have htoken : At (asyncInit : State Θ) none := ⟨rfl, by simp [asyncInit], rfl, rfl, by simp [asyncInit]⟩
    constructor
    · exact ⟨none, htoken⟩
    all_goals simp [asyncInit]
  step s l t hi hst := by
    obtain ⟨u, hu, hiu⟩ := step_spec asyncCb hi hst.1
    cases hu.symm.trans hst.2
    exact hiu

/-! ## Posts -/

def Label.isPost : Label Θ → Bool
  | .post _ => true
  | _ => false

def Label.isClear : Label Θ → Bool
  | .clear => true
  | _ => false

def Pc.entries : Pc → ℕ
  | .entered => 1
  | _ => 0

/-- Where a completion may be between its post and `async_sent = 0`. -/
def State.posted (s : State Θ) : ℕ := s.port + s.ring + s.pc.entries

def isEntered : Option (Place Θ) → ℕ
  | some .entered => 1
  | _ => 0

omit [DecidableEq Θ] in
theorem At.entries (h : At s o) : s.pc.entries = isEntered o := by
  by_cases hp : s.pc = .entered
  · rw [hp, h.entered.1 hp]
    rfl
  · have h0 : s.pc.entries = 0 := by
      unfold Pc.entries
      split
      · exact absurd ‹_› hp
      · rfl
    have h1 : isEntered o = 0 := by
      unfold isEntered
      split
      · exact absurd (h.entered.2 rfl) hp
      · rfl
    rw [h0, h1]

omit [DecidableEq Θ] in
theorem At.posted (h : At s o) : s.posted ≤ 1 ∧ ∀ p, s.sending p = true → s.posted = 0 := by
  have hs := h.sending
  unfold State.posted
  rw [h.port, h.ring, h.entries]
  cases o with
  | none => simp_all [onPort, inRing, isEntered]
  | some x => cases x <;> simp_all [onPort, inRing, isEntered]

theorem posted_step (he : enabled s l) (hs : step asyncCb s l = some t) :
    s.posted + l.isPost.toNat = t.posted + l.isClear.toNat := by
  cases l with
  | exchange | other =>
    cases hs
    rfl
  | post =>
    cases hs
    simp only [State.posted, State.post, Label.isPost, Label.isClear, Bool.toNat_true, Bool.toNat_false]
    omega
  | poll =>
    cases hs
    have := he.2
    simp only [State.posted, Label.isPost, Label.isClear, Bool.toNat_false]
    omega
  | process =>
    cases hs
    have := he.2
    simp only [State.posted, Label.isPost, Label.isClear, Bool.toNat_false, he.1, Pc.entries]
    omega
  | clear =>
    cases hs
    simp [State.posted, Label.isPost, Label.isClear, show s.pc = .entered from he, Pc.entries]
  | wakeup =>
    cases hs
    unfold State.wakeup
    split_ifs <;> simp [State.posted, Label.isPost, Label.isClear, State.wantEndgame, show s.pc = .cleared from he, Pc.entries]
  | ret =>
    cases hs
    simp [State.posted, Label.isPost, Label.isClear, show s.pc = .callback from he, Pc.entries]
  | close =>
    cases hs
    unfold State.close
    rcases he.1 with hp | hp <;> dsimp only <;> split_ifs <;>
      simp [State.posted, Label.isPost, Label.isClear, State.wantEndgame, hp, Pc.entries]
  | closing =>
    obtain ⟨b, hp⟩ := he
    simp only [step, State.handleClosing] at hs
    split at hs
    · cases hs
    · cases hs
      cases b <;> simp [State.posted, Label.isPost, Label.isClear, hp, Pc.entries]
  | endgame =>
    simp only [step, State.endgame] at hs
    split_ifs at hs <;> cases hs <;> rfl

theorem posted_history {ls : List (Label Θ)} (h : (system Θ asyncCb).History ls s) :
    ls.countP Label.isPost = ls.countP Label.isClear + s.posted := by
  have hti : (system Θ asyncCb).TraceInductive fun ls s => ls.countP Label.isPost = ls.countP Label.isClear + s.posted := by
    refine ⟨?_, fun ls s l t hp hst => ?_⟩
    · rintro s rfl
      rfl
    · have := posted_step hst.1 hst.2
      cases h1 : l.isPost <;> cases h2 : l.isClear <;> simp_all <;> omega
  exact hti.run h

theorem processed_between {a b c : List (Label Θ)} {q : Θ} (h : (system Θ asyncCb).History (a ++ .post p :: (b ++ .post q :: c)) s) :
    .clear ∈ b := by
  have hzero {ls : List (Label Θ)} {u : State Θ} (h : (system Θ asyncCb).History ls u) {p : Θ} (hp : u.sending p = true) :
      u.posted = 0 := by
    obtain ⟨o, ho⟩ := ((inv_inductive asyncCb).reachable ⟨_, h⟩).token
    exact ho.posted.2 p hp
  obtain ⟨u, _, hu, hus⟩ := h.before
  rw [← List.cons_append, ← List.append_assoc] at h
  obtain ⟨v, _, hv, hvs⟩ := h.before
  have h0 := posted_history hu
  have h1 := posted_history hv
  rw [hzero hv hvs.1, List.countP_append, List.countP_append, List.countP_cons_of_pos rfl,
    List.countP_cons_of_neg (by simp [Label.isClear])] at h1
  obtain ⟨l, hl, hc⟩ := List.countP_pos_iff.1 (show 0 < b.countP Label.isClear by omega)
  cases l <;> simp_all [Label.isClear]

/-! ## Fair runs -/

def Active : Thread Θ → State Θ → Prop
  | .elsewhere, _ => False
  | .sender p, s => s.sending p = true
  | .loop, s => s.pc ≠ .idle ∨ 0 < s.port ∨ 0 < s.ring ∨ s.endgameQueued = true

/-- A send is not yet answered, or the handle is closing. -/
def State.Awaits (s : State Θ) : Prop :=
  s.closed = false ∧ (s.asyncSent = true ∨ s.pc = .cleared ∨ s.closing = true)

def Helps : Thread Θ → State Θ → Prop
  | .elsewhere, _ => False
  | .sender p, s => s.pc ≠ .cleared ∧ s.sending p = true
  | .loop, s => s.pc = .cleared ∨ ∀ p, s.sending p = false

def Pc.weight : Pc → ℕ
  | .idle | .entered => 0
  | .callback | .closing false => 1
  | .cleared | .closing true => 2

theorem Pc.weight_le (q : Pc) : q.weight ≤ 2 := by
  unfold Pc.weight
  split <;> decide

/-- The places the completion has yet to go through. -/
def State.ahead (s : State Θ) : ℕ :=
  if s.asyncSent then 5 - s.port - 2 * s.ring - (if s.pc = .entered then 3 else 0) else 0

def Pc.isClosing : Pc → Bool
  | .closing _ => true
  | _ => false

/-- The steps that are left before the callback, or before the handle is closed. The closing that may come
in between counts for more than what it brings about. -/
def State.left (s : State Θ) : ℕ :=
  if s.pc = .cleared ∧ s.closing = false then 0
  else (if s.closing || s.pc.isClosing then 0 else 20) + 2 * s.ahead + s.pc.weight + s.endgameQueued.toNat

/-- A send is answered: the callback starts if there is one. -/
def Answered (asyncCb : Bool) (s : State Θ) (l : Label Θ) (t : State Θ) : Prop :=
  l = .wakeup ∧ s.closing = false ∧ t.pc = if asyncCb then .callback else .idle

omit [DecidableEq Θ] in
theorem Helps.of_cleared {p : Thread Θ} (hp : Helps p s) (hc : s.pc = .cleared) : p = .loop := by
  cases p with
  | elsewhere => exact hp.elim
  | loop => rfl
  | sender q => exact absurd hc hp.1

theorem exchange_left (ho : At s o) (hw : s.Awaits) (hcl : s.closing = false)
    (hp : s.sending p = false) : (s.exchange p).Awaits ∧ (s.exchange p).left = s.left ∧
      ∀ q, Helps q s → .sender p ≠ q ∧ Helps q (s.exchange p) := by
  by_cases hc : s.pc = .cleared
  · have h0 : s.left = 0 := if_pos ⟨hc, hcl⟩
    have h1 : (s.exchange p).left = 0 := if_pos ⟨hc, hcl⟩
    refine ⟨⟨hw.1, .inr (.inl hc)⟩, h1.trans h0.symm, fun q hq => ?_⟩
    obtain rfl := hq.of_cleared hc
    exact ⟨by simp, .inl hc⟩
  · have hsent : s.asyncSent = true := by
      rcases hw.2 with h | h | h
      · exact h
      · exact absurd h hc
      · exact absurd (hcl.symm.trans h) (by decide)
    rcases ho.exchange hp with ⟨-, e⟩ | ⟨h, -⟩
    · rw [e]
      refine ⟨hw, rfl, fun q hq => ⟨fun e => ?_, hq⟩⟩
      subst e
      exact absurd (hp.symm.trans hq.2) (by decide)
    · exact absurd (h.symm.trans hsent) (by decide)

theorem post_left (ho : At s o) (hp : s.sending p = true)
    (hc : ¬ (s.pc = .cleared ∧ s.closing = false)) : (s.post p).left < s.left := by
  obtain ⟨rfl, -⟩ := ho.post hp
  have hsent : s.asyncSent = true := ho.sent
  have hport : s.port = 0 := ho.port
  have hring : s.ring = 0 := ho.ring
  have hpc : s.pc ≠ .entered := fun e => by
    have := ho.entered.1 e
    cases this
  have e0 : s.ahead = 5 := by simp [State.ahead, hsent, hport, hring, hpc]
  have e1 : (s.post p).ahead = 4 := by simp [State.ahead, State.post, hsent, hport, hring, hpc]
  have h0 : s.left = (if s.closing || s.pc.isClosing then 0 else 20) + 2 * s.ahead + s.pc.weight + s.endgameQueued.toNat :=
    if_neg hc
  have h1 : (s.post p).left = (if s.closing || s.pc.isClosing then 0 else 20) + 2 * (s.post p).ahead + s.pc.weight +
      s.endgameQueued.toNat := if_neg hc
  omega

theorem step_left (hi : Inv s) (hw : s.Awaits) (he : enabled s l) (hs : step asyncCb s l = some t) :
    (Answered asyncCb s l t ∨ t.closed = true) ∨
      t.Awaits ∧ (t.left < s.left ∨ t.left = s.left ∧ ∀ p, Helps p s → l.thread ≠ p ∧ Helps p t) := by
  obtain ⟨o, ho⟩ := hi.token
  have hcd := hw.1
  cases l with
  | exchange p =>
    cases hs
    obtain ⟨h1, h2, h3⟩ := exchange_left ho hw he.1 he.2
    exact .inr ⟨h1, .inr ⟨h2, h3⟩⟩
  | post p =>
    cases hs
    by_cases hc : s.pc = .cleared ∧ s.closing = false
    · have h0 : s.left = 0 := if_pos hc
      have h1 : (s.post p).left = 0 := if_pos hc
      refine .inr ⟨hw, .inr ⟨h1.trans h0.symm, fun q hq => ?_⟩⟩
      obtain rfl := hq.of_cleared hc.1
      exact ⟨by simp [Label.thread], .inl hc.1⟩
    · exact .inr ⟨hw, .inl (post_left ho he hc)⟩
  | poll =>
    cases hs
    obtain ⟨hpc, hp⟩ := he
    have ha := ho.poll hp
    refine .inr ⟨hw, .inl ?_⟩
    have hsent : s.asyncSent = true := ha.sent
    have hr : s.ring + 1 = 1 := ha.ring
    have hp' : s.port - 1 = 0 := ha.port
    simp [State.left, State.ahead, hpc, hsent]
    omega
  | process =>
    cases hs
    obtain ⟨hpc, hr⟩ := he
    have ha := ho.process hr
    have hsent : s.asyncSent = true := ha.sent
    refine .inr ⟨⟨hcd, .inl hsent⟩, .inl ?_⟩
    have hp : s.port = 0 := ha.port
    have hr' : s.ring - 1 = 0 := ha.ring
    simp [State.left, State.ahead, hpc, hsent, Pc.isClosing, Pc.weight]
    omega
  | clear =>
    cases hs
    obtain ⟨rfl, -⟩ := ho.clear he
    have hpc : s.pc = .entered := he
    have hsent : s.asyncSent = true := ho.sent
    have hp : s.port = 0 := ho.port
    have hr : s.ring = 0 := ho.ring
    refine .inr ⟨⟨hcd, .inr (.inl rfl)⟩, .inl ?_⟩
    cases hc : s.closing <;> simp [State.left, State.ahead, hpc, hsent, hp, hr, hc, Pc.isClosing, Pc.weight]
  | wakeup =>
    have hpc : s.pc = .cleared := he
    cases hs
    unfold State.wakeup
    split
    · next hc =>
      refine .inr ⟨⟨hcd, .inr (.inr hc)⟩, .inl ?_⟩
      simp [State.left, State.ahead, State.wantEndgame, hpc, hc, Pc.weight]
      omega
    · next hc =>
      refine .inl (.inl ⟨rfl, by simpa using hc, ?_⟩)
      split <;> simp_all
  | ret =>
    have hpc : s.pc = .callback := he
    cases hs
    refine .inr ⟨⟨hcd, ?_⟩, .inl ?_⟩
    · rcases hw.2 with h | h | h
      · exact .inl h
      · simp [hpc] at h
      · exact .inr (.inr h)
    · simp [State.left, State.ahead, hpc, Pc.weight, Pc.isClosing]
  | close =>
    obtain ⟨hpc, hcl⟩ := he
    have hsent : s.asyncSent = true := by
      rcases hw.2 with h | h | h
      · exact h
      · rcases hpc with e | e <;> simp [e] at h
      · exact absurd (hcl.symm.trans h) (by decide)
    cases hs
    refine .inr ⟨⟨by simp [State.close, hsent, hcd], .inl (by simp [State.close, hsent])⟩, .inl ?_⟩
    have hle := Pc.weight_le (.closing (s.pc == .callback))
    rcases hpc with e | e <;> simp [State.left, State.ahead, State.close, hsent, e, hcl, Pc.isClosing] at hle ⊢ <;> omega
  | closing =>
    obtain ⟨b, hpc⟩ := he
    obtain ⟨hcl, -⟩ := hi.reading b hpc
    rw [step, State.handleClosing, hcl] at hs
    cases hs
    refine .inr ⟨⟨hcd, .inr (.inr rfl)⟩, .inl ?_⟩
    cases b <;> simp [State.left, State.ahead, hpc, hcl, Pc.weight, Pc.isClosing]
  | endgame =>
    obtain ⟨hpc, hq⟩ := he
    have hcl := (hi.queued' hq (by simp [hpc])).2
    simp only [step, State.endgame, hcl, hcd, Bool.true_and] at hs
    split at hs
    · cases hs
      exact .inl (.inr rfl)
    · next hsent =>
      cases hs
      refine .inr ⟨⟨rfl, .inr (.inr rfl)⟩, .inl ?_⟩
      simp [State.left, State.ahead, hpc, hcl, hq]
  | other =>
    cases hs
    refine .inr ⟨hw, .inr ⟨rfl, fun q hq => ⟨fun e => ?_, hq⟩⟩⟩
    subst e
    exact hq

theorem answered (asyncCb : Bool) (ρ : (system Θ asyncCb).InfRun) (hf : ρ.Fair Label.thread Active) {n : ℕ}
    (hl : ρ.label n = .exchange p) : ∃ m, n < m ∧
      (Answered asyncCb (ρ.state m) (ρ.label m) (ρ.state (m + 1)) ∨ (ρ.state (m + 1)).closed = true) := by
  have he := (ρ.step n).1
  have hs := (ρ.step n).2
  rw [hl] at he hs
  have hi := (inv_inductive asyncCb).reachable (ρ.reachable n)
  have hcd : (ρ.state n).closed = false := by
    by_contra hc
    exact absurd (he.1.symm.trans (hi.closed (by simpa using hc)).1) (by decide)
  have hw : (ρ.state (n + 1)).Awaits := by
    rw [← Option.some.inj hs]
    exact ⟨hcd, .inl rfl⟩
  obtain ⟨m, hm, hq⟩ := ρ.leads_to State.Awaits Helps State.left (fun s l t => Answered asyncCb s l t ∨ t.closed = true) hf
    (fun p s hr hw hp => by
      have hi := (inv_inductive asyncCb).reachable hr
      cases p with
      | elsewhere => exact hp
      | sender p => exact hp.2
      | loop =>
        rcases hp with hp | hp
        · exact .inl (by simp [hp])
        obtain ⟨o, ho⟩ := hi.token
        cases o with
        | none =>
          have hsent : s.asyncSent = false := ho.sent
          rcases hw.2 with h | h | h
          · exact absurd (hsent.symm.trans h) (by decide)
          · exact .inl (by simp [h])
          · rcases hi.path h hw.1 with h | h | h
            · exact .inr (.inr (.inr h))
            · exact absurd (hsent.symm.trans h) (by decide)
            · exact .inl (by simp [h])
        | some x =>
          cases x with
          | thread q => exact absurd ((ho.sending q).2 rfl) (by simp [hp q])
          | port => exact .inr (.inl (by simp [ho.port, onPort]))
          | ring => exact .inr (.inr (.inl (by simp [ho.ring, inRing])))
          | entered => exact .inl (by simp [ho.entered.2 rfl]))
    (fun s _ _ => by
      by_cases hc : s.pc = .cleared
      · exact ⟨.loop, .inl hc⟩
      by_cases hp : ∃ p, s.sending p = true
      · obtain ⟨p, hp⟩ := hp
        exact ⟨.sender p, hc, hp⟩
      · exact ⟨.loop, .inr fun p => by simpa using not_exists.1 hp p⟩)
    (fun s l t hr hw hst => step_left ((inv_inductive asyncCb).reachable hr) hw hst.1 hst.2) (n + 1) hw
  exact ⟨m, by omega, hq⟩

/-- **Wakeups**, over any threads and any order of steps. The request is posted once and then not again before
it is processed; the handle is closed once, while no completion is on its way and none comes after; no step
fails; and in a fair run a send is followed by the callback, or the handle is closed first. -/
theorem wakeup (asyncCb : Bool) :
    (∀ s, ∀ a b c : List (Label Θ), ∀ p q, (system Θ asyncCb).History (a ++ .post p :: (b ++ .post q :: c)) s → .clear ∈ b) ∧
    (∀ s, (system Θ asyncCb).Reachable s → s.closeCbs ≤ 1 ∧
      (0 < s.closeCbs → s.port = 0 ∧ s.ring = 0 ∧ (∀ p, s.sending p = false) ∧ s.pc ≠ .entered) ∧
      ∀ l, enabled s l → ∃ t, step asyncCb s l = some t) ∧
    ∀ ρ : (system Θ asyncCb).InfRun, ρ.Fair Label.thread Active → ∀ p n, ρ.label n = .exchange p →
      ∃ m, n < m ∧ ((ρ.label m = .wakeup ∧ (ρ.state m).closing = false ∧
          (ρ.state (m + 1)).pc = if asyncCb then .callback else .idle) ∨ (ρ.state (m + 1)).closed = true) := by
  refine ⟨fun s a b c p q h => processed_between h, fun s hr => ?_, fun ρ hf p n hl => answered asyncCb ρ hf hl⟩
  have hi := (inv_inductive asyncCb).reachable hr
  refine ⟨?_, fun h0 => ?_, fun l he => ?_⟩
  · rw [hi.closeCbs]
    split <;> decide
  · have hcd : s.closed = true := by
      by_contra hc
      rw [hi.closeCbs, if_neg hc] at h0
      cases h0
    obtain ⟨o, ho⟩ := hi.token
    have ho0 : o = none := by simpa using ho.sent.symm.trans (hi.closed hcd).2.1
    subst ho0
    exact ⟨ho.port, ho.ring, fun p => by simpa using ho.sending p, by simpa using ho.entered⟩
  · obtain ⟨t, ht, -⟩ := step_spec asyncCb hi he
    exact ⟨t, ht⟩

/-! ## One sender -/

def one (asyncSent closing closed endgameQueued : Bool) (closeCbs port ring : ℕ) (pc : Pc) (sending : Bool) : State Unit :=
  ⟨asyncSent, closing, closed, endgameQueued, closeCbs, port, ring, pc, fun _ => sending⟩

theorem one_step {s : State Unit} (l : Label Unit) (t : State Unit) (he : enabled s l) (hs : step true s l = some t) :
    (system Unit true).step s l t := ⟨he, hs⟩

theorem history_two : (system Unit true).History
    [.exchange (), .post (), .poll, .process, .clear, .wakeup, .exchange (), .post (), .close, .closing, .ret, .poll, .process,
      .clear, .wakeup, .endgame] (one false true true false 1 0 0 .idle false) := by
  have h0 : (system Unit true).History [] asyncInit := .nil rfl
  have h1 := h0.snoc (one_step (.exchange ()) (one true false false false 0 0 0 .idle true) ⟨rfl, rfl⟩ rfl)
  have h2 := h1.snoc (one_step (.post ()) (one true false false false 0 1 0 .idle false) rfl rfl)
  have h3 := h2.snoc (one_step .poll (one true false false false 0 0 1 .idle false) ⟨rfl, one_pos⟩ rfl)
  have h4 := h3.snoc (one_step .process (one true false false false 0 0 0 .entered false) ⟨rfl, one_pos⟩ rfl)
  have h5 := h4.snoc (one_step .clear (one false false false false 0 0 0 .cleared false) rfl rfl)
  have h6 := h5.snoc (one_step .wakeup (one false false false false 0 0 0 .callback false) rfl rfl)
  have h7 := h6.snoc (one_step (.exchange ()) (one true false false false 0 0 0 .callback true) ⟨rfl, rfl⟩ rfl)
  have h8 := h7.snoc (one_step (.post ()) (one true false false false 0 1 0 .callback false) rfl rfl)
  have h9 := h8.snoc (one_step .close (one true false false false 0 1 0 (.closing true) false) ⟨.inr rfl, rfl⟩ rfl)
  have h10 := h9.snoc (one_step .closing (one true true false false 0 1 0 .callback false) ⟨true, rfl⟩ rfl)
  have h11 := h10.snoc (one_step .ret (one true true false false 0 1 0 .idle false) rfl rfl)
  have h12 := h11.snoc (one_step .poll (one true true false false 0 0 1 .idle false) ⟨rfl, one_pos⟩ rfl)
  have h13 := h12.snoc (one_step .process (one true true false false 0 0 0 .entered false) ⟨rfl, one_pos⟩ rfl)
  have h14 := h13.snoc (one_step .clear (one false true false false 0 0 0 .cleared false) rfl rfl)
  have h15 := h14.snoc (one_step .wakeup (one false true false true 0 0 0 .idle false) rfl rfl)
  exact h15.snoc (one_step .endgame (one false true true false 1 0 0 .idle false) ⟨rfl, rfl⟩ rfl)

theorem sending_step (hs : step asyncCb s l = some t) (hl : l.thread ≠ .sender p) :
    t.sending p = s.sending p := by
  cases l with
  | exchange q | post q =>
    cases hs
    exact Function.update_of_ne (fun e => hl (by rw [e]; rfl)) _ _
  | poll | process | clear | ret | other =>
    cases hs
    rfl
  | wakeup =>
    cases hs
    unfold State.wakeup
    split_ifs <;> rfl
  | close =>
    cases hs
    unfold State.close
    split_ifs <;> rfl
  | closing | endgame =>
    simp only [step, State.handleClosing, State.endgame] at hs
    split_ifs at hs <;> cases hs <;> rfl

theorem wakeup_two : (.clear ∈ ([.poll, .process, .clear, .wakeup, .exchange ()] : List (Label Unit))) ∧
    ∃ ρ : (system Unit true).InfRun, ρ.label 6 = .exchange () ∧ (ρ.state 16).closeCbs ≤ 1 ∧
      ∃ m, 6 < m ∧ ((ρ.label m = .wakeup ∧ (ρ.state m).closing = false ∧ (ρ.state (m + 1)).pc = .callback) ∨
        (ρ.state (m + 1)).closed = true) := by
  obtain ⟨hpost, hsafe, hlive⟩ := wakeup (Θ := Unit) true
  obtain ⟨ρ, hlab, hend⟩ := history_two.forever (one_step .other _ trivial rfl)
  -- the last step of the sender is the second post
  have hlate (n : ℕ) (hn : 8 ≤ n) : (ρ.label n).thread ≠ .sender () := by
    rw [hlab]
    rcases Nat.lt_or_ge n 16 with hlt | hge
    · interval_cases n <;> simp [Label.thread]
    · rw [List.getElem?_eq_none hge]
      simp [Label.thread]
  have hidle (n : ℕ) (hn : 8 ≤ n) : (ρ.state n).sending () = false := by
    induction n, hn using Nat.le_induction with
    | base =>
      have hs := (ρ.step 7).2
      rw [hlab] at hs
      rw [← Option.some.inj hs]
      rfl
    | succ n hn ih => rw [sending_step (ρ.step n).2 (hlate n hn), ih]
  have hfair : ρ.Fair Label.thread Active := by
    intro p n ha
    cases p with
    | elsewhere => exact ha.elim
    | sender =>
      rcases Nat.lt_or_ge n 8 with hlt | hge
      · exact ⟨7, by omega, by rw [hlab]; rfl⟩
      · exact absurd (ha.symm.trans (hidle n hge)) (by decide)
    | loop =>
      rcases Nat.lt_or_ge n 16 with hlt | hge
      · exact ⟨15, by omega, by rw [hlab]; rfl⟩
      · rw [hend n hge] at ha
        rcases ha with ha | ha | ha | ha <;> simp [one] at ha
  exact ⟨hpost _ [.exchange ()] _ _ _ _ history_two, ρ, hlab 6, (hsafe _ (ρ.reachable 16)).1, hlive ρ hfair () 6 (hlab 6)⟩

end Libuv.L5.AsyncWakeup
