import Libuv.L2Loop.SignalTree

/-!
# Signal watchers: what holds in every run

* `signal_accounting`: the two counters of a handle account for its messages.
-/
namespace Libuv.L2.Signal

open List Function

def Pc.msgs : Pc → List Msg
  | .messages msgs _ => msgs
  | .handled msg msgs _ _ => msg :: msgs
  | .starting _ _ _ _ back => back.msgs
  | _ => []

/-- What `uv__run_closing_handles` has yet to finish. -/
def Pc.closings : Pc → List ℕ
  | .closing p => p
  | .starting _ _ _ _ back => back.closings
  | _ => []

/-- The messages to a loop that are not dispatched. -/
def outstanding (s : State) (L : ℕ) : List Msg := (s.pc L).msgs ++ s.pipe L

/-- The handles of a loop that wait for their `close_cb`. -/
def closings (s : State) (L : ℕ) : List ℕ := (s.pc L).closings ++ s.closingHandles L

/-- If its handle has not been started since, it is stopped or has the number of the message. -/
structure Sound (s : State) (m : Msg) : Prop where
  signum : m.signum ≠ 0
  start : m.start ≤ (s.ghost m.handle).starts
  current : m.start = (s.ghost m.handle).starts → (s.handles m.handle).signum ≠ 0 → m.signum = (s.handles m.handle).signum

/-- The handle for which `uv__signal_start` waits for the lock. -/
structure Waits (s : State) (L h : ℕ) (n : ℤ) (back : Pc) : Prop where
  live : (s.handles h).live = true
  open_ : (s.handles h).closing = false
  loop : (s.handles h).loop = L
  stopped : (s.handles h).signum = 0
  number : n ≠ 0
  calls : back.Calls

structure Closes (s : State) (L h : ℕ) : Prop where
  live : (s.handles h).live = true
  closing : (s.handles h).closing = true
  loop : (s.handles h).loop = L

structure Wf (s : State) : Prop where
  tree : Tree s
  own : ∀ h, (s.handles h).signum ≠ 0 → (s.handles h).live = true ∧ (s.handles h).closing = false
  waits : ∀ L h cb n oneshot back, s.pc L = .starting h cb n oneshot back → Waits s L h n back
  nodup : ∀ L, (closings s L).Nodup
  closes : ∀ L, ∀ h ∈ closings s L, Closes s L h
  sound : ∀ L, ∀ m ∈ outstanding s L, Sound s m

/-! ## One step -/

/-- `x` is left as it was, or is stopped, or is started anew. -/
def Moves (s t : State) (x : ℕ) : Prop :=
  (t.ghost x).starts = (s.ghost x).starts ∧ ((t.handles x).signum = (s.handles x).signum ∨ (t.handles x).signum = 0) ∨
    (s.ghost x).starts < (t.ghost x).starts

/-- What a step that neither starts, closes nor finishes `x` leaves. -/
structure Keeps (s t : State) (x : ℕ) : Prop where
  live : (t.handles x).live = (s.handles x).live
  loop : (t.handles x).loop = (s.handles x).loop
  closing : (t.handles x).closing = (s.handles x).closing
  stopped : (s.handles x).signum = 0 → (t.handles x).signum = 0

/-- What a step does, and what it found. -/
inductive Stepped (valid : ℤ → Bool) (s : State) : Label → State → Prop
  | init {L h} (h0 : (s.handles h).live = false) : Stepped valid s (.init L h) (signalInit s L h)
  | zero {h cb b} : Stepped valid s (.start h cb 0 b) s
  | again {h cb n b} (own : Own s h) (hn : n ≠ 0) (hsig : n = (s.handles h).signum) :
    Stepped valid s (.start h cb n b) (mark (put s h { s.handles h with signalCb := cb }) h ((s.ghost h).start b))
  | restart {h cb n b} (own : Own s h) (hn : n ≠ 0) (hsig : n ≠ (s.handles h).signum) : Stepped valid s (.start h cb n b)
      ((signalStop s h).setPc (s.handles h).loop (.starting h cb n b (s.pc (s.handles h).loop)))
  | start {h cb n b} (own : Own s h) (hn : n ≠ 0) (h0 : (s.handles h).signum = 0) :
    Stepped valid s (.start h cb n b) (startLocked valid s h cb n b)
  | lock {L h cb n b back} (hp : s.pc L = .starting h cb n b back) :
    Stepped valid s (.lock L) ((startLocked valid s h cb n b).setPc L back)
  | stop {h} (own : Own s h) :
    Stepped valid s (.stop h) (mark (signalStop s h) h { (signalStop s h).ghost h with promised := false })
  | close {h} (own : Own s h) : Stepped valid s (.close h) (mark (close s h) h { (close s h).ghost h with promised := false })
  | signal {n ok} : Stepped valid s (.signal n ok) (arrive s n ok)
  | read {L n} (hp : s.pc L = .idle ∨ s.pc L = .reading) : Stepped valid s (.read L n)
      (State.setPc { s with pipe := update s.pipe L ((s.pipe L).drop n) } L (.messages ((s.pipe L).take n) (n = 32)))
  | drained {L} (hp : s.pc L = .reading) : Stepped valid s (.drained L) (s.setPc L .idle)
  | pick {L m msgs full} (hp : s.pc L = .messages (m :: msgs) full) (called : Bool)
      (hcalled : called = true ↔ m.signum = (s.handles m.handle).signum) : Stepped valid s (.pick L)
      (State.setPc (if called = true ∧ m.start = (s.ghost m.handle).starts then
        mark s m.handle { s.ghost m.handle with promised := false } else s) L (.handled m msgs full called))
  | complete {L m msgs full called} (hp : s.pc L = .handled m msgs full called) :
    Stepped valid s (.complete L) ((complete s m.handle).setPc L (.messages msgs full))
  | next {L full} (hp : s.pc L = .messages [] full) : Stepped valid s (.next L) (s.setPc L (if full then .reading else .idle))
  | runClosing {L} (hp : s.pc L = .idle) : Stepped valid s (.runClosing L)
      (State.setPc { s with closingHandles := update s.closingHandles L [] } L (.closing (s.closingHandles L)))
  | finishClose {L h p} (hp : s.pc L = .closing (h :: p)) :
    Stepped valid s (.finishClose L) ((finishClose s h).setPc L (.closing p))
  | closed {L} (hp : s.pc L = .closing []) : Stepped valid s (.closed L) (s.setPc L .idle)

theorem step_cases {valid : ℤ → Bool} {s t : State} {l : Label} (h : step valid s l = some t) : Stepped valid s l t := by
  cases l with
  | init =>
    obtain ⟨hc, ⟨⟩⟩ := Option.ite_none_right_eq_some.1 h
    exact .init hc.1
  | start =>
    obtain ⟨own, h⟩ := Option.ite_none_right_eq_some.1 h
    split_ifs at h with hn hsig h0 <;> cases h
    · exact hn ▸ .zero
    · exact .again own hn hsig
    · exact .restart own hn hsig
    · exact .start own hn (not_not.1 h0)
  | stop | close =>
    obtain ⟨own, ⟨⟩⟩ := Option.ite_none_right_eq_some.1 h
    constructor
    exact own
  | signal =>
    cases h
    exact .signal
  | read | drained =>
    obtain ⟨hc, ⟨⟩⟩ := Option.ite_none_right_eq_some.1 h
    constructor
    exact hc.1
  | runClosing =>
    obtain ⟨hp, ⟨⟩⟩ := Option.ite_none_right_eq_some.1 h
    exact .runClosing hp
  | pick =>
    simp only [step] at h
    split at h
    next hp =>
      cases h
      exact .pick hp _ decide_eq_true_iff
    next => cases h
  | lock | complete | next | finishClose | closed =>
    simp only [step] at h
    split at h
    next hp =>
      cases h
      constructor
      exact hp
    next => cases h

section Step
variable {valid : ℤ → Bool} {s t : State} {L h x cb : ℕ} {n : ℤ} {b : Bool} {m : Msg} {back : Pc}

theorem Sound.moves (hm : Sound s m) (hx : Moves s t m.handle) : Sound t m where
  signum := hm.signum
  start := by
    have := hm.start
    rcases hx with ⟨e, _⟩ | hlt <;> omega
  current hst hn := by
    have hle := hm.start
    rcases hx with ⟨e, hsig | h0⟩ | hlt
    · rw [hsig] at hn ⊢
      exact hm.current (hst.trans e) hn
    · exact absurd h0 hn
    · omega

theorem Moves.of_eq (hh : t.handles x = s.handles x) (hg : t.ghost x = s.ghost x) : Moves s t x :=
  .inl ⟨by rw [hg], .inl (by rw [hh])⟩

theorem Keeps.of_eq (hh : t.handles x = s.handles x) : Keeps s t x := by
  constructor <;> simp [hh]

theorem Keeps.congr {u : State} (hk : Keeps s t x) (hu : u.handles x = t.handles x) : Keeps s u x := by
  constructor <;> rw [hu]
  exacts [hk.live, hk.loop, hk.closing, hk.stopped]

theorem Moves.congr {u : State} (hm : Moves s t x) (hu : u.handles x = t.handles x)
    (hg : (u.ghost x).starts = (t.ghost x).starts) : Moves s u x := by
  rwa [Moves, hu, hg]

theorem Waits.keeps (hw : Waits s L h n back) (hk : Keeps s t h) : Waits t L h n back where
  live := hk.live.trans hw.live
  open_ := hk.closing.trans hw.open_
  loop := hk.loop.trans hw.loop
  stopped := hk.stopped hw.stopped
  number := hw.number
  calls := hw.calls

theorem Closes.keeps (hc : Closes s L h) (hk : Keeps s t h) : Closes t L h where
  live := hk.live.trans hc.live
  closing := hk.closing.trans hc.closing
  loop := hk.loop.trans hc.loop

theorem Wf.next (hs : Wf s) (tree : Tree t) (moves : ∀ x, Moves s t x)
    (own : ∀ x, Keeps s t x ∨ ((t.handles x).signum ≠ 0 → (t.handles x).live = true ∧ (t.handles x).closing = false))
    (waits : ∀ L h cb n b back, t.pc L = .starting h cb n b back →
      s.pc L = .starting h cb n b back ∧ Keeps s t h ∨ Waits t L h n back)
    (nodup : ∀ L, (closings t L).Nodup) (closes : ∀ L, ∀ h ∈ closings t L, h ∈ closings s L ∧ Keeps s t h ∨ Closes t L h)
    (sound : ∀ L, ∀ m ∈ outstanding t L, m ∈ outstanding s L ∨ Sound t m) : Wf t where
  tree := tree
  own x hx := by
    rcases own x with hk | ho
    · rw [hk.live, hk.closing]
      exact hs.own x fun h0 => hx (hk.stopped h0)
    · exact ho hx
  waits L h cb n b back hp := by
    rcases waits L h cb n b back hp with ⟨hp', hk⟩ | hw
    · exact (hs.waits _ _ _ _ _ _ hp').keeps hk
    · exact hw
  nodup := nodup
  closes L h hh := by
    rcases closes L h hh with ⟨hh', hk⟩ | hc
    · exact (hs.closes L h hh').keeps hk
    · exact hc
  sound L m hm := by
    rcases sound L m hm with hm' | hm'
    · exact (hs.sound L m hm').moves (moves _)
    · exact hm'

theorem Wf.not_waits (hs : Wf s) (hx : (s.pc (s.handles x).loop).Calls) (hp : s.pc L = .starting h cb n b back) : h ≠ x := by
  rintro rfl
  rw [(hs.waits _ _ _ _ _ _ hp).loop, hp] at hx
  exact hx

theorem Wf.call (hs : Wf s) (hx : Own s x) (tree : Tree t) (hne : ∀ y, y ≠ x → t.handles y = s.handles y ∧ t.ghost y = s.ghost y)
    (hmv : Moves s t x) (own : (t.handles x).signum ≠ 0 → (t.handles x).live = true ∧ (t.handles x).closing = false)
    (pc : t.pc = s.pc) (pipe : t.pipe = s.pipe) (nodup : ∀ L, (closings t L).Nodup)
    (closes : ∀ L, ∀ h ∈ closings t L, h ∈ closings s L ∨ Closes t L h) : Wf t := by
  apply hs.next tree
  · intro y
    rcases eq_or_ne y x with rfl | hyx
    · exact hmv
    · exact .of_eq (hne y hyx).1 (hne y hyx).2
  · intro y
    rcases eq_or_ne y x with rfl | hyx
    · exact .inr own
    · exact .inl (.of_eq (hne y hyx).1)
  · intro L h cb n b back hp
    rw [pc] at hp
    exact .inl ⟨hp, .of_eq (hne h (hs.not_waits hx.2.2 hp)).1⟩
  · exact nodup
  · intro L h hh
    rcases closes L h hh with hold | hnew
    · refine .inl ⟨hold, .of_eq (hne h ?_).1⟩
      rintro rfl
      exact absurd (hs.closes L h hold).closing (by simp [hx.2.1])
    · exact .inr hnew
  · intro L m hm
    rw [outstanding, pc, pipe] at hm
    exact .inl hm

theorem Wf.call' (hs : Wf s) (hx : Own s x) (tree : Tree t)
    (hne : ∀ y, y ≠ x → t.handles y = s.handles y ∧ t.ghost y = s.ghost y) (hmv : Moves s t x)
    (own : (t.handles x).signum ≠ 0 → (t.handles x).live = true ∧ (t.handles x).closing = false)
    (pc : t.pc = s.pc) (pipe : t.pipe = s.pipe) (cl : t.closingHandles = s.closingHandles) : Wf t := by
  have e (L) : closings t L = closings s L := by rw [closings, closings, pc, cl]
  apply hs.call hx tree hne hmv own pc pipe
  · intro L
    rw [e]
    exact hs.nodup L
  · intro L h hh
    rw [e] at hh
    exact .inl hh

theorem Wf.move (hs : Wf s) (tree : Tree t) (hk : ∀ x, Keeps s t x ∧ Moves s t x) (pc : ∀ M, M ≠ L → t.pc M = s.pc M)
    (waits : ∀ h cb n b back, t.pc L = .starting h cb n b back → Waits t L h n back)
    (cl : ∀ M, closings t M = closings s M) (out : ∀ M, ∀ m ∈ outstanding t M, m ∈ outstanding s M) : Wf t := by
  apply hs.next tree
  · exact fun x => (hk x).2
  · exact fun x => .inl (hk x).1
  · intro M h cb n b back hp
    rcases eq_or_ne M L with rfl | hM
    · exact .inr (waits h cb n b back hp)
    · rw [pc M hM] at hp
      exact .inl ⟨hp, (hk h).1⟩
  · intro M
    rw [cl]
    exact hs.nodup M
  · intro M h hh
    rw [cl] at hh
    exact .inl ⟨hh, (hk h).1⟩
  · exact fun M m hm => .inl (out M m hm)

/-! ### Labels -/

theorem signalStop_keeps (s : State) (h x : ℕ) : Keeps s (signalStop s h) x ∧ Moves s (signalStop s h) x := by
  unfold Moves
  rw [(signalStop_frame h).2.2.2]
  rcases eq_or_ne x h with rfl | hx
  · refine ⟨?_, .inl ⟨rfl, .inr ?_⟩⟩
    · constructor <;> simp [signalStop_handles]
    · simp [signalStop_handles]
  · refine ⟨.of_eq ?_, .inl ⟨rfl, .inl ?_⟩⟩ <;> simp [signalStop_handles, hx]

theorem Wf.init (hs : Wf s) (h0 : (s.handles h).live = false) : Wf (signalInit s L h) := by
  have hne {y} (hy : y ≠ h) : Keeps s (signalInit s L h) y := by
    apply Keeps.of_eq
    simp [signalInit, hy]
  have hsig : (s.handles h).signum = 0 := by
    by_contra hc
    rw [(hs.own h hc).1] at h0
    cases h0
  apply hs.next
  · refine @Tree.congr s (signalInit s L h) hs.tree rfl fun y => ?_
    rcases eq_or_ne y h with rfl | hy
    · refine ⟨by simp [signalInit, hsig], fun hm => absurd hsig ((hs.tree.mem y).1 hm)⟩
    · simp [signalInit, hy, key]
  · intro y
    rcases eq_or_ne y h with rfl | hy
    · exact .inl ⟨rfl, .inr (by simp [signalInit])⟩
    · exact .of_eq (by simp [signalInit, hy]) rfl
  · intro y
    rcases eq_or_ne y h with rfl | hy
    · exact .inr fun _ => by simp [signalInit]
    · exact .inl (hne hy)
  · intro M y cb n b back hp
    refine .inl ⟨hp, hne ?_⟩
    rintro rfl
    have := (hs.waits _ _ _ _ _ _ hp).live
    rw [h0] at this
    cases this
  · exact hs.nodup
  · intro M y hy
    refine .inl ⟨hy, hne ?_⟩
    rintro rfl
    have := (hs.closes M y hy).live
    rw [h0] at this
    cases this
  · exact fun M m hm => .inl hm

theorem Wf.again (hs : Wf s) (hx : Own s h) :
    Wf (mark (put s h { s.handles h with signalCb := cb }) h ((s.ghost h).start b)) := by
  apply hs.call' hx
  · refine @Tree.congr s _ hs.tree rfl fun y => ?_
    rcases eq_or_ne y h with rfl | hy
    · simp [key]
    · simp [key, hy]
  · intro y hy
    simp [hy]
  · right
    simp [Ghost.start]
  · intro _
    simpa using ⟨hx.1, hx.2.1⟩
  · rfl
  · rfl
  · rfl

theorem startLocked_frame (valid : ℤ → Bool) (s : State) (h cb : ℕ) (n : ℤ) (b : Bool) :
    (startLocked valid s h cb n b).pc = s.pc ∧ (startLocked valid s h cb n b).pipe = s.pipe ∧
      (startLocked valid s h cb n b).closingHandles = s.closingHandles ∧
      ∀ x, x ≠ h → (startLocked valid s h cb n b).handles x = s.handles x ∧
        (startLocked valid s h cb n b).ghost x = s.ghost x := by
  by_cases ha : Accepted valid s n b
  · have hst := @startLocked_started valid s h cb n b ha
    refine ⟨hst.pc, hst.pipe, hst.closingHandles, fun x hx => ?_⟩
    rw [hst.handles, hst.ghost, update_of_ne hx, update_of_ne hx]
    exact ⟨rfl, rfl⟩
  · rw [startLocked_refused ha]
    exact ⟨rfl, rfl, rfl, fun _ _ => ⟨rfl, rfl⟩⟩

theorem startLocked_self (valid : ℤ → Bool) (s : State) (h cb : ℕ) (n : ℤ) (b : Bool) :
    let t := startLocked valid s h cb n b
    Moves s t h ∧ (t.handles h).live = (s.handles h).live ∧ (t.handles h).loop = (s.handles h).loop ∧
      (t.handles h).closing = (s.handles h).closing := by
  by_cases ha : Accepted valid s n b
  · have hst := @startLocked_started valid s h cb n b ha
    refine ⟨.inr ?_, ?_, ?_, ?_⟩ <;> simp [hst.ghost, hst.handles, Ghost.start]
  · rw [startLocked_refused ha]
    exact ⟨.of_eq rfl rfl, rfl, rfl, rfl⟩

theorem Wf.start (hs : Wf s) (hx : Own s h) (h0 : (s.handles h).signum = 0) (hn : n ≠ 0) :
    Wf (startLocked valid s h cb n b) := by
  obtain ⟨hpc, hpipe, hcl, hne⟩ := startLocked_frame valid s h cb n b
  obtain ⟨hmv, hlive, _, hclosing⟩ := startLocked_self valid s h cb n b
  apply hs.call' hx (hs.tree.startLocked h0 hn) hne hmv _ hpc hpipe hcl
  intro _
  exact ⟨hlive.trans hx.1, hclosing.trans hx.2.1⟩

theorem Wf.restart (hs : Wf s) (hx : Own s h) (hn : n ≠ 0) :
    Wf ((signalStop s h).setPc (s.handles h).loop (.starting h cb n b (s.pc (s.handles h).loop))) := by
  obtain ⟨hpipe, hpc, hcl, hg⟩ := signalStop_frame (s := s) h
  have hstop : (signalStop s h).handles h = { s.handles h with signum := 0 } := by
    rw [signalStop_handles, update_self]
  apply hs.move (L := (s.handles h).loop)
  · exact (hs.tree.signalStop h).congr rfl fun x => ⟨rfl, fun _ => rfl⟩
  · exact fun x => ⟨(signalStop_keeps s h x).1.congr rfl, (signalStop_keeps s h x).2.congr rfl rfl⟩
  · intro M hM
    simp [hM, hpc]
  · intro h' cb' n' b' back' hp
    simp only [setPc_pc, update_self, Pc.starting.injEq] at hp
    obtain ⟨rfl, rfl, rfl, rfl, rfl⟩ := hp
    constructor <;> simp [hstop, hx.1, hx.2.1, hx.2.2, hn]
  · intro M
    rcases eq_or_ne M (s.handles h).loop with rfl | hM
    · simp [closings, hcl, Pc.closings]
    · simp [closings, hcl, hpc, hM]
  · intro M m hm
    rcases eq_or_ne M (s.handles h).loop with rfl | hM
    · simpa [outstanding, hpipe, Pc.msgs] using hm
    · simpa [outstanding, hpipe, hpc, hM] using hm

theorem Wf.lock (hs : Wf s) (hp : s.pc L = .starting h cb n b back) :
    Wf ((startLocked valid s h cb n b).setPc L back) := by
  obtain ⟨hpc, hpipe, hcl, hne⟩ := startLocked_frame valid s h cb n b
  obtain ⟨hmv, hlive, hloop, hclosing⟩ := startLocked_self valid s h cb n b
  have hw := hs.waits _ _ _ _ _ _ hp
  have hwait {M h' cb' n' b' back'} (hM : M ≠ L) (hp' : s.pc M = .starting h' cb' n' b' back') : h' ≠ h := by
    rintro rfl
    have := (hs.waits _ _ _ _ _ _ hp').loop
    rw [hw.loop] at this
    exact hM this.symm
  have hcl' (M) : closings ((startLocked valid s h cb n b).setPc L back) M = closings s M := by
    rcases eq_or_ne M L with rfl | hM
    · simp [closings, hcl, hp, Pc.closings]
    · simp [closings, hcl, hpc, hM]
  apply hs.next
  · exact (hs.tree.startLocked hw.stopped hw.number).congr rfl fun x => ⟨rfl, fun _ => rfl⟩
  · intro x
    rcases eq_or_ne x h with rfl | hx
    · exact hmv
    · exact .of_eq (hne x hx).1 (hne x hx).2
  · intro x
    rcases eq_or_ne x h with rfl | hx
    · exact .inr fun _ => ⟨hlive.trans hw.live, hclosing.trans hw.open_⟩
    · exact .inl (.of_eq (hne x hx).1)
  · intro M h' cb' n' b' back' hp'
    rcases eq_or_ne M L with rfl | hM
    · rw [setPc_pc, update_self] at hp'
      exact absurd hw.calls (by simp [hp', Pc.Calls])
    · rw [setPc_pc, update_of_ne hM, hpc] at hp'
      exact .inl ⟨hp', .of_eq (hne _ (hwait hM hp')).1⟩
  · intro M
    rw [hcl']
    exact hs.nodup M
  · intro M x hx
    rw [hcl'] at hx
    refine .inl ⟨hx, .of_eq (hne x ?_).1⟩
    rintro rfl
    exact absurd (hs.closes M x hx).closing (by simp [hw.open_])
  · intro M m hm
    left
    rcases eq_or_ne M L with rfl | hM
    · simpa [outstanding, hpipe, hp, Pc.msgs] using hm
    · simpa [outstanding, hpipe, hpc, hM] using hm

theorem Wf.stop (hs : Wf s) (hx : Own s h) :
    Wf (mark (signalStop s h) h { (signalStop s h).ghost h with promised := false }) := by
  obtain ⟨hpipe, hpc, hcl, hg⟩ := signalStop_frame (s := s) h
  apply hs.call' hx
  · exact (hs.tree.signalStop h).congr rfl fun x => ⟨rfl, fun _ => rfl⟩
  · intro y hy
    simp [signalStop_handles, hg, hy]
  · exact (signalStop_keeps s h h).2.congr rfl (by simp)
  · simp [signalStop_handles]
  · exact hpc
  · exact hpipe
  · exact hcl

theorem Wf.close (hs : Wf s) (hx : Own s h) :
    Wf (mark (close s h) h { (close s h).ghost h with promised := false }) := by
  obtain ⟨hpipe, hpc, hg, hcl⟩ := close_frame (s := s) h
  have hclosings (M) : closings (mark (Signal.close s h) h { (Signal.close s h).ghost h with promised := false }) M =
      (s.pc M).closings ++ if M = (s.handles h).loop then h :: s.closingHandles M else s.closingHandles M := by
    rcases eq_or_ne M (s.handles h).loop with rfl | hM
    · simp [closings, hpc, hcl]
    · simp [closings, hpc, hcl, hM]
  apply hs.call hx
  · exact (hs.tree.close h).congr rfl fun x => ⟨rfl, fun _ => rfl⟩
  · intro y hy
    simp [close_handles, hg, hy]
  · exact .inl ⟨by simp [hg], .inr (by simp [close_handles])⟩
  · simp [close_handles]
  · exact hpc
  · exact hpipe
  · intro M
    rw [hclosings]
    split_ifs with hM
    · have hn := hs.nodup M
      have hnot : h ∉ closings s M := fun hm => absurd (hs.closes M h hm).closing (by simp [hx.2.1])
      exact nodup_middle.2 (nodup_cons.2 ⟨hnot, hn⟩)
    · exact hs.nodup M
  · intro M y hy
    rw [hclosings] at hy
    by_cases hyh : M = (s.handles h).loop ∧ y = h
    · obtain ⟨rfl, rfl⟩ := hyh
      right
      constructor <;> simp [close_handles, hx.1]
    · left
      split_ifs at hy with hM
      · rcases mem_append.1 hy with hy | hy
        · exact mem_append_left _ hy
        · rcases mem_cons.1 hy with rfl | hy
          · exact absurd ⟨hM, rfl⟩ hyh
          · exact mem_append_right _ hy
      · exact hy

theorem arrive_keeps (hs : Tree s) (n : ℤ) (ok : ℕ → Bool) (x : ℕ) :
    Keeps s (arrive s n ok) x ∧ Moves s (arrive s n ok) x := by
  unfold Moves
  rw [arrive_ghost hs]
  refine ⟨?_, .inl ⟨?_, .inl ?_⟩⟩
  · constructor <;> rw [arrive_handles hs] <;> split_ifs <;> simp
  · split_ifs <;> rfl
  · rw [arrive_handles hs]
    split_ifs <;> rfl

theorem Wf.arrive (hs : Wf s) (n : ℤ) (ok : ℕ → Bool) : Wf (arrive s n ok) := by
  obtain ⟨_, hpc, hcl⟩ := arrive_frame (s := s) n ok
  have hk := arrive_keeps hs.tree n ok
  have hclosings (M) : closings (Signal.arrive s n ok) M = closings s M := by rw [closings, closings, hpc, hcl]
  apply hs.next
  · exact hs.tree.arrive n ok
  · exact fun x => (hk x).2
  · exact fun x => .inl (hk x).1
  · intro L h cb n b back hp
    rw [hpc] at hp
    exact .inl ⟨hp, (hk h).1⟩
  · intro M
    rw [hclosings]
    exact hs.nodup M
  · intro M h hh
    rw [hclosings] at hh
    exact .inl ⟨hh, (hk h).1⟩
  · intro M m hm
    rw [outstanding, hpc, arrive_pipe hs.tree, ← append_assoc] at hm
    rcases mem_append.1 hm with hold | hnew
    · exact .inl hold
    · right
      split_ifs at hnew
      · cases hnew
      · obtain ⟨hn, hsig, hloop, hm1, hm2⟩ := mem_written hs.tree n ok hnew
        have hh : ((Signal.arrive s n ok).handles m.handle).signum = n := by
          rw [arrive_handles hs.tree]
          split_ifs <;> exact hsig
        have hg : ((Signal.arrive s n ok).ghost m.handle).starts = (s.ghost m.handle).starts := by
          rw [arrive_ghost hs.tree]
          split_ifs <;> rfl
        constructor
        · exact hm1 ▸ hn
        · rw [hm2, hg]
        · intro _ _
          rw [hm1, hh]

theorem Wf.quiet (hs : Wf s) (tree : t.tree = s.tree) (hh : t.handles = s.handles)
    (hg : ∀ x, (t.ghost x).starts = (s.ghost x).starts) (pc : ∀ M, M ≠ L → t.pc M = s.pc M)
    (waits : ∀ h cb n b back, t.pc L ≠ .starting h cb n b back)
    (cl : ∀ M, closings t M = closings s M) (out : ∀ M, ∀ m ∈ outstanding t M, m ∈ outstanding s M) : Wf t := by
  apply hs.move (L := L)
  · exact hs.tree.congr tree fun x => by simp [key, hh]
  · intro x
    exact ⟨.of_eq (by rw [hh]), .inl ⟨hg x, .inl (by rw [hh])⟩⟩
  · exact pc
  · exact fun h cb n b back hp => absurd hp (waits h cb n b back)
  · exact cl
  · exact out

theorem Wf.setPc (hs : Wf s) {pc : Pc} (waits : ∀ h cb n b back, pc ≠ .starting h cb n b back)
    (cl : pc.closings = (s.pc L).closings) (out : pc.msgs = (s.pc L).msgs) : Wf (s.setPc L pc) := by
  apply hs.quiet (L := L)
  · rfl
  · rfl
  · exact fun _ => rfl
  · exact fun M hM => update_of_ne hM ..
  · simpa using waits
  · intro M
    rcases eq_or_ne M L with rfl | hM
    · simp [closings, cl]
    · simp [closings, hM]
  · intro M m hm
    rcases eq_or_ne M L with rfl | hM
    · simpa [outstanding, out] using hm
    · simpa [outstanding, hM] using hm

theorem Wf.mark (hs : Wf s) {g : Ghost} (hg : g.starts = (s.ghost h).starts) : Wf (mark s h g) := by
  apply hs.next
  · exact hs.tree.congr rfl fun x => ⟨rfl, fun _ => rfl⟩
  · intro x
    refine .inl ⟨?_, .inl rfl⟩
    rcases eq_or_ne x h with rfl | hx
    · simp [hg]
    · simp [hx]
  · exact fun x => .inl (.of_eq rfl)
  · exact fun M h' cb n b back hp => .inl ⟨hp, .of_eq rfl⟩
  · exact hs.nodup
  · exact fun M x hx => .inl ⟨hx, .of_eq rfl⟩
  · exact fun M m hm => .inl hm

theorem complete_keeps (s : State) (h x : ℕ) : Keeps s (complete s h) x ∧ Moves s (complete s h) x := by
  unfold Moves
  rw [(complete_frame h).2.2.2]
  rcases eq_or_ne x h with rfl | hx
  · refine ⟨?_, .inl ⟨rfl, ?_⟩⟩
    · constructor <;> simp +contextual [complete_handles]
    · cases ho : (s.handles x).oneShot <;> simp [complete_handles, ho]
  · refine ⟨.of_eq ?_, .inl ⟨rfl, .inl ?_⟩⟩ <;> simp [complete_handles, hx]

theorem Wf.complete (hs : Wf s) {msgs : List Msg} {full called : Bool} (hp : s.pc L = .handled m msgs full called) :
    Wf ((complete s m.handle).setPc L (.messages msgs full)) := by
  obtain ⟨hpipe, hpc, hcl, hg⟩ := complete_frame (s := s) m.handle
  have hk := complete_keeps s m.handle
  apply hs.move (L := L)
  · exact (hs.tree.complete m.handle).congr rfl fun x => ⟨rfl, fun _ => rfl⟩
  · exact fun x => ⟨(hk x).1.congr rfl, (hk x).2.congr rfl rfl⟩
  · intro M hM
    simp [hM, hpc]
  · simp
  · intro M
    rcases eq_or_ne M L with rfl | hM
    · simp [closings, hcl, hp, Pc.closings]
    · simp [closings, hcl, hpc, hM]
  · intro M m' hm
    rcases eq_or_ne M L with rfl | hM
    · simp only [outstanding, setPc_pc, update_self, setPc_pipe, hpipe, Pc.msgs] at hm
      simp only [outstanding, hp, Pc.msgs, cons_append]
      exact .tail _ hm
    · simpa [outstanding, hpipe, hpc, hM] using hm

theorem Wf.closes_head (hs : Wf s) {p : List ℕ} (hp : s.pc L = .closing (h :: p)) :
    closings s L = h :: (p ++ s.closingHandles L) ∧ Closes s L h ∧ (s.handles h).signum = 0 := by
  have hold : closings s L = h :: (p ++ s.closingHandles L) := by simp [closings, hp, Pc.closings]
  have hh : Closes s L h := hs.closes L h (by simp [hold])
  refine ⟨hold, hh, ?_⟩
  by_contra hc
  exact absurd (hs.own h hc).2 (by simp [hh.closing])

theorem Wf.requeue (hs : Wf s) {p : List ℕ} (hp : s.pc L = .closing (h :: p)) (ht : t.handles = s.handles ∧ t.tree = s.tree ∧
      t.pipe = s.pipe ∧ t.pc = s.pc ∧ t.ghost = s.ghost)
    (hq : t.closingHandles = Function.update s.closingHandles L (h :: s.closingHandles L)) : Wf (t.setPc L (.closing p)) := by
  obtain ⟨hh, htree, hpipe, hpc, hg⟩ := ht
  have hold := (hs.closes_head hp).1
  have hcl (M) : closings (t.setPc L (.closing p)) M = if M = L then p ++ h :: s.closingHandles L else closings s M := by
    split_ifs with hM
    · simp [closings, hM, Pc.closings, hq]
    · simp [closings, hM, hq, hpc]
  have hk (x) : Keeps s (t.setPc L (.closing p)) x := .of_eq (by simp [hh])
  apply hs.next
  · exact hs.tree.congr htree fun x => by simp [key, hh]
  · exact fun x => .of_eq (by simp [hh]) (by simp [hg])
  · exact fun x => .inl (hk x)
  · intro M h' cb n b back hp'
    rcases eq_or_ne M L with rfl | hM
    · simp at hp'
    · rw [setPc_pc, update_of_ne hM, hpc] at hp'
      exact .inl ⟨hp', hk _⟩
  · intro M
    rw [hcl]
    split_ifs
    · have hnodup := hs.nodup L
      rw [hold] at hnodup
      exact nodup_middle.2 hnodup
    · exact hs.nodup M
  · intro M x hx
    rw [hcl] at hx
    refine .inl ⟨?_, hk x⟩
    split_ifs at hx with hM
    · rw [hM, hold]
      simpa [or_left_comm] using hx
    · exact hx
  · intro M m hm
    left
    rcases eq_or_ne M L with rfl | hM
    · simpa [outstanding, hp, Pc.msgs, hpipe] using hm
    · simpa [outstanding, hM, hpipe, hpc] using hm

theorem Wf.finish (hs : Wf s) {p : List ℕ} (hp : s.pc L = .closing (h :: p)) :
    Wf ((put s h { s.handles h with live := false }).setPc L (.closing p)) := by
  obtain ⟨hold, hh, h0⟩ := hs.closes_head hp
  have hnodup := hs.nodup L
  rw [hold] at hnodup
  have hne {x} (hx : x ≠ h) : ((put s h { s.handles h with live := false }).setPc L (.closing p)).handles x = s.handles x := by
    simp [hx]
  have hcl (M) : closings ((put s h { s.handles h with live := false }).setPc L (.closing p)) M =
      if M = L then p ++ s.closingHandles L else closings s M := by
    split_ifs with hM
    · simp [closings, hM, Pc.closings]
    · simp [closings, hM]
  apply hs.next
  · have hput : Tree (put s h { s.handles h with live := false }) := hs.tree.put h rfl ⟨rfl, rfl⟩
    exact hput.congr rfl fun x => ⟨rfl, fun _ => rfl⟩
  · intro x
    refine .inl ⟨rfl, .inl ?_⟩
    rcases eq_or_ne x h with rfl | hx
    · simp
    · rw [hne hx]
  · intro x
    rcases eq_or_ne x h with rfl | hx
    · exact .inr fun hc => absurd h0 (by simpa using hc)
    · exact .inl (.of_eq (hne hx))
  · intro M h' cb n b back hp'
    rcases eq_or_ne M L with rfl | hM
    · simp at hp'
    · rw [setPc_pc, update_of_ne hM] at hp'
      refine .inl ⟨hp', .of_eq (hne ?_)⟩
      rintro rfl
      exact absurd (hs.waits _ _ _ _ _ _ hp').open_ (by simp [hh.closing])
  · intro M
    rw [hcl]
    split_ifs
    · exact (nodup_cons.1 hnodup).2
    · exact hs.nodup M
  · intro M x hx
    rw [hcl] at hx
    split_ifs at hx with hM
    · refine .inl ⟨?_, .of_eq (hne ?_)⟩
      · rw [hM, hold]
        exact .tail _ hx
      · rintro rfl
        exact (nodup_cons.1 hnodup).1 hx
    · refine .inl ⟨hx, .of_eq (hne ?_)⟩
      rintro rfl
      exact hM ((hs.closes M x hx).loop.symm.trans hh.loop)
  · intro M m hm
    left
    rcases eq_or_ne M L with rfl | hM
    · simpa [outstanding, hp, Pc.msgs] using hm
    · simpa [outstanding, hM] using hm

theorem Wf.finishClose (hs : Wf s) {p : List ℕ} (hp : s.pc L = .closing (h :: p)) :
    Wf ((finishClose s h).setPc L (.closing p)) := by
  unfold Signal.finishClose
  dsimp only
  split_ifs with hlt
  · rw [(hs.closes_head hp).2.1.loop]
    exact hs.requeue (t := { s with closingHandles := Function.update s.closingHandles L _ }) hp ⟨rfl, rfl, rfl, rfl, rfl⟩ rfl
  · exact hs.finish hp

theorem Wf.step (hs : Wf s) {l : Label} (h : step valid s l = some t) : Wf t := by
  cases step_cases h with
  | init h0 => exact hs.init h0
  | zero => exact hs
  | again own => exact hs.again own
  | restart own hn => exact hs.restart own hn
  | start own hn h0 => exact hs.start own h0 hn
  | lock hp => exact hs.lock hp
  | stop own => exact hs.stop own
  | close own => exact hs.close own
  | signal => exact hs.arrive _ _
  | @read L n hp =>
    have hmsgs : (s.pc L).msgs = [] ∧ (s.pc L).closings = [] := by
      rcases hp with e | e <;> rw [e] <;> exact ⟨rfl, rfl⟩
    apply hs.quiet (L := L)
    · rfl
    · rfl
    · exact fun _ => rfl
    · exact fun M hM => update_of_ne hM ..
    · simp
    · intro M
      rcases eq_or_ne M L with rfl | hM
      · simp [closings, Pc.closings, hmsgs.2]
      · simp [closings, hM]
    · intro M m hm
      rcases eq_or_ne M L with rfl | hM
      · simpa [outstanding, Pc.msgs, hmsgs.1] using hm
      · simpa [outstanding, hM] using hm
  | drained hp | closed hp =>
    apply hs.setPc
    · nofun
    · rw [hp]
      rfl
    · rw [hp]
      rfl
  | pick hp =>
    apply Wf.setPc
    · split_ifs
      · exact hs.mark rfl
      · exact hs
    · nofun
    · split_ifs <;> simp [hp, Pc.closings]
    · split_ifs <;> simp [hp, Pc.msgs]
  | complete hp => exact hs.complete hp
  | next hp =>
    apply hs.setPc
    · split_ifs <;> nofun
    · rw [hp]
      split_ifs <;> rfl
    · rw [hp]
      split_ifs <;> rfl
  | @runClosing L hp =>
    apply hs.quiet (L := L)
    · rfl
    · rfl
    · exact fun _ => rfl
    · exact fun M hM => update_of_ne hM ..
    · simp
    · intro M
      rcases eq_or_ne M L with rfl | hM
      · simp [closings, Pc.closings, hp]
      · simp [closings, hM]
    · intro M m hm
      rcases eq_or_ne M L with rfl | hM
      · simpa [outstanding, Pc.msgs, hp] using hm
      · simpa [outstanding, hM] using hm
  | finishClose hp => exact hs.finishClose hp

theorem wf : (system valid).Inductive Wf where
  init s hs := by
    subst hs
    constructor
    · exact ⟨.nil, fun h => by simp [State.fresh]⟩
    · exact fun h hh => absurd rfl hh
    · nofun
    · exact fun L => .nil
    · nofun
    · nofun
  step _ _ _ hs h := hs.step h

end Step

end Libuv.L2.Signal
